import Connectal.Marshall.Types

/-! Numeric types in the generator, before the names in them are resolved. The generator
evaluates them three times: for the C type, for the expressions, and for the width of a
member. Python stops a deep recursion, so each evaluation has fuel. -/
namespace Connectal.Numeric

inductive Op where
  | TAdd
  | TSub
  | TMul
  | TDiv
  | TLog
  | TExp
  | TMax
  | TMin
  deriving DecidableEq, Repr

/-- Names as the lexer tells them apart. -/
inductive Name where
  | num (n : Nat)
  | op (o : Op)
  | var (v : String)
  deriving DecidableEq, Repr

/-- A type as the parser leaves it. -/
inductive Item where
  | mk (name : Name) (params : List Item)

def Item.name : Item → Name
  | .mk name _ => name

/-- Entries other than type definitions have no `tdtype`. -/
inductive Decl where
  | typeDef (tdtype : Item)
  | other

/-- Names that the package declares. The parser takes no number for a name. -/
structure Globals where
  get? : Name → Option Decl
  get?_num : ∀ n, get? (.num n) = none

inductive Failure where
  | valueError
  | indexError
  | keyError
  | unboundLocal
  | assertion
  | depth
  deriving DecidableEq, Repr

section Evaluation

-- TDiv, TLog and TExp go through floating point.
variable (float : Op → List Int → Except Failure Int) (g : Globals)

/-- The chain of comparisons after the arguments are evaluated. The test for TMin
is for TMax once more, and the name of the operator is read as a number. -/
def Op.apply : Op → List Int → Except Failure Int
  | .TAdd, x :: y :: _ => .ok (x + y)
  | .TSub, x :: y :: _ => .ok (x - y)
  | .TMul, x :: y :: _ => .ok (x * y)
  | .TMax, x :: y :: _ => .ok (max x y)
  | .TMin, _ => .error .valueError
  | .TDiv, values => float .TDiv values
  | .TLog, values => float .TLog values
  | .TExp, values => float .TExp values
  | _, _ => .error .indexError

/-- The body that the two evaluators share. -/
def numeric : Nat → Item → Except Failure Int
  | 0, _ => .error .depth
  | fuel + 1, .mk name params =>
    match g.get? name, name with
    | some (.typeDef tdtype), _ => numeric fuel tdtype
    | none, .op o => do o.apply float (← params.mapM (numeric fuel))
    | _, .num n => .ok n
    | _, _ => .error .valueError

def typeNumeric := numeric float g

def getNumeric := numeric float g

/-- The loop that follows type definitions. The declaration it saw last is unbound
before the first turn. -/
def resolve : Nat → Option Decl → Name → Except Failure (Option Decl × Name)
  | 0, _, _ => .error .depth
  | fuel + 1, decl, width =>
    match g.get? width with
    | none => .ok (decl, width)
    | some .other => .ok (some .other, width)
    | some (.typeDef tdtype) => resolve fuel (some (.typeDef tdtype)) tdtype.name

/-- What the loop leaves becomes a width. -/
def width (fuel : Nat) : Option Decl × Name → Except Failure Int
  | (_, .num n) => .ok n
  | (some (.typeDef tdtype), _) => getNumeric float g fuel tdtype
  | (some .other, _) => .error .keyError
  | (none, _) => .error .unboundLocal

/-- Types of members with the sizes that the package wrote. -/
inductive Datatype where
  | bit (e : Item)
  | int (e : Item)
  | uint (e : Item)
  | bool
  | float
  | enum (name : String) (labels : List String)
  | sendingFd

def typeBitWidth (ceilLog : Nat → Nat) (fuel : Nat) : Datatype → Except Failure Int
  | .bit e | .int e | .uint e => do width float g fuel (← resolve g fuel none e.name)
  | .bool => .ok 1
  | .float => .ok 32
  | .enum _ labels => .ok (ceilLog labels.length)
  | .sendingFd => .ok 0

def typeCName (fuel : Nat) : Datatype → Except Failure CName
  | .bit e => do
    let n ← typeNumeric float g fuel e
    .ok (if n ≤ 32 then .uint32 else if n ≤ 64 then .uint64 else .bitset n.toNat)
  | .int e => do if (← typeNumeric float g fuel e) = 32 then .ok .int else .error .assertion
  | .uint e => do if (← typeNumeric float g fuel e) = 32 then .ok .unsigned else .error .assertion
  | .bool => .ok .int
  | .float => .ok .float
  | .enum name _ => .ok (.enum name)
  | .sendingFd => .ok .sendingFd

end Evaluation

/-- The number of bits that an object of the type keeps. -/
def objectBits : CName → Option Nat
  | .bitset n => some n
  | cname => cname.intType.map (·.width)

/-- What Bluespec makes of two numbers. There are no negative numeric types. -/
def Op.meaning : Op → Nat → Nat → Option Nat
  | .TAdd, x, y => some (x + y)
  | .TSub, x, y => if y ≤ x then some (x - y) else none
  | .TMul, x, y => some (x * y)
  | .TMax, x, y => some (max x y)
  | .TMin, x, y => some (min x y)
  | _, _, _ => none

/-- The value of an expression in Bluespec. A cycle of type definitions has none. -/
inductive Value (g : Globals) : Item → Nat → Prop where
  | num (n : Nat) : Value g (.mk (.num n) []) n
  | typeDef {name : Name} {tdtype : Item} {v : Nat} (hGet : g.get? name = some (.typeDef tdtype))
      (hDef : Value g tdtype v) : Value g (.mk name []) v
  | apply {o : Op} {a b : Item} {x y v : Nat} (hGet : g.get? (.op o) = none) (ha : Value g a x)
      (hb : Value g b y) (hOp : o.meaning x y = some v) : Value g (.mk (.op o) [a, b]) v

/-- The operators of an expression and of the definitions that it names. -/
inductive Uses (g : Globals) : Item → Op → Prop where
  | here {o : Op} {params : List Item} (hGet : g.get? (.op o) = none) : Uses g (.mk (.op o) params) o
  | param {o o' : Op} {params : List Item} {p : Item} (hGet : g.get? (.op o') = none)
      (hMem : p ∈ params) (h : Uses g p o) : Uses g (.mk (.op o') params) o
  | typeDef {o : Op} {name : Name} {params : List Item} {tdtype : Item}
      (hGet : g.get? name = some (.typeDef tdtype)) (h : Uses g tdtype o) : Uses g (.mk name params) o

/-- The expression is an application of an operator and not a name for one. -/
def Item.Direct (g : Globals) (e : Item) : Prop := ∃ o, e.name = .op o ∧ g.get? (.op o) = none

section Agreement

variable {float : Op → List Int → Except Failure Int} {g : Globals} {e : Item} {v : Nat}

theorem numeric_typeDef {name : Name} {params : List Item} {tdtype : Item} {fuel : Nat}
    (hGet : g.get? name = some (.typeDef tdtype)) :
    numeric float g (fuel + 1) (.mk name params) = numeric float g fuel tdtype := by
  simp [numeric, hGet]

theorem numeric_op_eq_ok {o : Op} {a b : Item} {fuel : Nat} {n : Int} (hGet : g.get? (.op o) = none) :
    numeric float g (fuel + 1) (.mk (.op o) [a, b]) = .ok n ↔ ∃ x y, numeric float g fuel a = .ok x ∧
      numeric float g fuel b = .ok y ∧ o.apply float [x, y] = .ok n := by
  simp only [numeric, hGet, List.mapM_cons, List.mapM_nil]
  cases numeric float g fuel a <;> cases numeric float g fuel b <;> simp [bind, Except.bind, pure, Except.pure]

/-- On natural numbers the code and Bluespec agree, but for TMin. -/
theorem Op.apply_meaning {o : Op} {x y : Nat} (hOp : o.meaning x y = some v) (hMin : o ≠ .TMin) :
    o.apply float [(x : Int), (y : Int)] = .ok (v : Int) := by
  cases o <;> simp only [Op.meaning, Option.some.injEq, Option.ite_none_right_eq_some, reduceCtorEq] at hOp
  all_goals simp only [Op.apply, Except.ok.injEq, ne_eq, not_true_eq_false] at hMin ⊢
  all_goals omega

variable (float) in
/-- Enough fuel gives the value. The definition of a name takes one level, and an
operator the deeper of its arguments. -/
theorem Value.exists_numeric (h : Value g e v) (hMin : ¬ Uses g e .TMin) :
    ∃ depth, ∀ fuel, numeric float g (fuel + depth) e = .ok v := by
  induction h with
  | num n => exact ⟨1, fun fuel => by simp [numeric, g.get?_num]⟩
  | typeDef hGet _ ih =>
    obtain ⟨depth, hEval⟩ := ih fun h => hMin (.typeDef hGet h)
    exact ⟨depth + 1, fun fuel => by rw [← Nat.add_assoc, numeric_typeDef hGet, hEval]⟩
  | @apply o a b x y v hGet _ _ hOp iha ihb =>
    obtain ⟨da, ha⟩ := iha fun h => hMin (.param hGet List.mem_cons_self h)
    obtain ⟨db, hb⟩ := ihb fun h => hMin (.param hGet (by simp) h)
    have hNot : o ≠ .TMin := fun hEq => hMin (hEq ▸ .here hGet)
    refine ⟨db + da + 1, fun fuel => ?_⟩
    rw [← Nat.add_assoc, numeric_op_eq_ok hGet, ← Nat.add_assoc]
    exact ⟨x, y, ha _, Nat.add_right_comm fuel .. ▸ hb _, Op.apply_meaning hOp hNot⟩

theorem Value.not_uses (h : Value g e v) {fuel : Nat} {n : Int} (hOk : numeric float g fuel e = .ok n) :
    ¬ Uses g e .TMin := by
  induction h generalizing fuel n with
  | num =>
    rintro (_ | _ | ⟨hGet, -⟩)
    simp [g.get?_num] at hGet
  | typeDef hGet _ ih =>
    cases fuel with
    | zero => cases hOk
    | succ fuel =>
      rw [numeric_typeDef hGet] at hOk
      rintro (hNone | ⟨hNone, -⟩ | ⟨hSame, h⟩)
      · simp [hNone] at hGet
      · simp [hNone] at hGet
      · rw [hGet, Option.some.injEq, Decl.typeDef.injEq] at hSame
        exact ih hOk (hSame ▸ h)
  | apply hGet _ _ _ iha ihb =>
    cases fuel with
    | zero => cases hOk
    | succ fuel =>
      obtain ⟨x, y, hx, hy, hApply⟩ := (numeric_op_eq_ok hGet).mp hOk
      rintro (_ | ⟨-, hMem, h⟩ | ⟨hSome, -⟩)
      · cases hApply
      · simp only [List.mem_cons, List.not_mem_nil, or_false] at hMem
        obtain rfl | rfl := hMem
        · exact iha hx h
        · exact ihb hy h
      · simp [hGet] at hSome

variable (float) in
/-- The loop ends at a number, or at an operator with the declaration that it was the
type of. -/
theorem Value.exists_width (h : Value g e v) (hMin : ¬ Uses g e .TMin) {decl : Option Decl}
    (hDecl : e.Direct g → decl = some (.typeDef e)) :
    ∃ depth, ∀ turns fuel,
      (resolve g (turns + depth) decl e.name >>= width float g (fuel + depth)) = .ok (v : Int) := by
  induction h generalizing decl with
  | num n =>
    exact ⟨1, fun turns fuel => by simp [resolve, Item.name, g.get?_num, width, bind, Except.bind]⟩
  | typeDef hGet _ ih =>
    obtain ⟨depth, hWidth⟩ := ih (fun h => hMin (.typeDef hGet h)) fun _ => rfl
    refine ⟨depth + 1, fun turns fuel => ?_⟩
    rw [← Nat.add_assoc turns, resolve, Item.name, hGet, Nat.add_comm depth, ← Nat.add_assoc fuel]
    exact hWidth turns (fuel + 1)
  | apply hGet ha hb hOp =>
    obtain ⟨depth, hEval⟩ := (Value.apply hGet ha hb hOp).exists_numeric float hMin
    refine ⟨depth + 1, fun turns fuel => ?_⟩
    rw [hDecl ⟨_, rfl, hGet⟩, ← Nat.add_assoc turns, resolve, Item.name, hGet, Nat.add_comm depth,
      ← Nat.add_assoc fuel]
    exact hEval (fuel + 1)

theorem typeBitWidth_direct {ceilLog : Nat → Nat} (h : e.Direct g) (fuel : Nat) (n : Int) :
    typeBitWidth float g ceilLog fuel (.bit e) ≠ .ok n := by
  obtain ⟨o, hName, hGet⟩ := h
  cases fuel <;> simp [typeBitWidth, resolve, hName, hGet, width, bind, Except.bind]

theorem exists_typeCName_bit {fuel : Nat} (h : typeNumeric float g fuel e = .ok (v : Int)) :
    ∃ cname bits, typeCName float g fuel (.bit e) = .ok cname ∧ objectBits cname = some bits ∧ v ≤ bits := by
  simp only [typeCName, h, bind, Except.bind]
  split_ifs with hWord hLong
  · exact ⟨_, 32, rfl, rfl, by omega⟩
  · exact ⟨_, 64, rfl, rfl, by omega⟩
  · exact ⟨_, v, rfl, rfl, le_rfl⟩

/-- The evaluators return the value, and the C type of the member has the bits that are
counted for it. -/
def Agree (float : Op → List Int → Except Failure Int) (g : Globals) (ceilLog : Nat → Nat) (e : Item)
    (v fuel : Nat) : Prop :=
  typeNumeric float g fuel e = .ok (v : Int) ∧ getNumeric float g fuel e = .ok (v : Int) ∧
    typeBitWidth float g ceilLog fuel (.bit e) = .ok (v : Int) ∧
    ∃ cname bits, typeCName float g fuel (.bit e) = .ok cname ∧ objectBits cname = some bits ∧ v ≤ bits

/-- With enough fuel the evaluators agree with Bluespec exactly where no TMin is evaluated
and an operator stands behind a name. -/
theorem evaluators_agree {ceilLog : Nat → Nat} (h : Value g e v) :
    (∃ depth, ∀ fuel, Agree float g ceilLog e v (fuel + depth)) ↔
      ¬ Uses g e .TMin ∧ ¬ e.Direct g := by
  constructor
  · rintro ⟨depth, hAgree⟩
    obtain ⟨hNumeric, -, hWidth, -⟩ := hAgree 0
    exact ⟨h.not_uses hNumeric, fun hDirect =>
      typeBitWidth_direct hDirect _ v hWidth⟩
  · rintro ⟨hMin, hDirect⟩
    obtain ⟨d, hNumeric⟩ := h.exists_numeric float hMin
    obtain ⟨d', hWidth⟩ := h.exists_width float hMin fun hDir => absurd hDir hDirect
    refine ⟨d + d', fun fuel => ?_⟩
    have hEval := hNumeric (fuel + d')
    rw [Nat.add_right_comm] at hEval
    rw [← Nat.add_assoc]
    exact ⟨hEval, hEval, hWidth (fuel + d) (fuel + d), exists_typeCName_bit hEval⟩

end Agreement

/-- A package that defines `Width` to be `TAdd#(8, 4)`. -/
def twelveBits : Globals where
  get? name := if name = .var "Width" then
      some (.typeDef (.mk (.op .TAdd) [.mk (.num 8) [], .mk (.num 4) []])) else none
  get?_num := fun _ => rfl

theorem evaluators_agree_twelve_bits :
    ∃ depth, ∀ fuel,
      Agree (fun _ _ => .error .valueError) twelveBits id (.mk (.var "Width") []) 12 (fuel + depth) := by
  have hValue : Value twelveBits (.mk (.var "Width") []) 12 :=
    .typeDef rfl (.apply rfl (.num 8) (.num 4) rfl)
  refine (evaluators_agree hValue).mpr ⟨?_, by rintro ⟨_, hName, -⟩; cases hName⟩
  rintro (_ | _ | ⟨hGet, h⟩)
  cases hGet
  obtain _ | ⟨-, hMem, h⟩ | ⟨hGet, -⟩ := h
  · simp only [List.mem_cons, List.not_mem_nil, or_false] at hMem
    obtain rfl | rfl := hMem <;> obtain _ | _ | ⟨hGet, -⟩ := h <;> cases hGet
  · cases hGet

/-- In a package without declarations the generator stops at `Bit#(TMin#(8, 4))` and at
`Bit#(TAdd#(8, 4))`. -/
theorem evaluators_stop :
    let g : Globals := ⟨fun _ => none, fun _ => rfl⟩
    let small : Item := .mk (.op .TMin) [.mk (.num 8) [], .mk (.num 4) []]
    let sum : Item := .mk (.op .TAdd) [.mk (.num 8) [], .mk (.num 4) []]
    let float := fun _ _ => .error .valueError
    Value g small 4 ∧ Value g sum 12 ∧ ∀ fuel,
      typeNumeric float g (fuel + 2) small = .error .valueError ∧
      getNumeric float g (fuel + 2) small = .error .valueError ∧
      typeBitWidth float g id (fuel + 1) (.bit sum) = .error .unboundLocal :=
  ⟨.apply rfl (.num 8) (.num 4) rfl, .apply rfl (.num 8) (.num 4) rfl, fun _ => ⟨rfl, rfl, rfl⟩⟩

end Connectal.Numeric
