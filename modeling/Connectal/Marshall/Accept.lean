import Connectal.Marshall.Agreement

/-! What follows from a proxy that writes and a handler that reads without a fault. -/
namespace Connectal

open Layout Rules

variable {ceilLog : Nat → Nat} {params : Params} {args : Args} {fd : BitVec 32}
  {xs : List (BitVec 32)} {vars : Vars}

/-- The arguments with one member set. -/
def Args.only (m : Member) (v : Nat) : Args := fun name => if name = m.name then v else 0

theorem Args.only_self (m : Member) (v : Nat) : Args.only m v m.name = v := if_pos rfl

theorem testBit_of_pack_eq {args' : Args} (h : params.pack args [] = params.pack args' [])
    {m : Member} (hm : m ∈ argAtoms params) {q : Nat} (hq : q < m.width) :
    (args m.name).testBit q = (args' m.name).testBit q := by
  obtain ⟨lower, upper, hMembers⟩ := List.append_of_mem hm
  have hBit (args : Args) : (params.pack args []).getLsbD (span Member.width lower + q) =
      (args m.name).testBit q := by
    rw [Params.getLsbD_pack, ← argAtoms, hMembers, bitAt_field lower upper hq, Member.bits]
  rw [← hBit, ← hBit, h]

theorem gatherMethodInfo_eq_some {info : MethodInfo} (hSome : argWords ceilLog params ≠ [])
    (h : gatherMethodInfo ceilLog params = some info) :
    List.Forall₂ (fun w call => generateMarshall ceilLog w = some call) (argWords ceilLog params)
      info.paramStructMarshall.reverse ∧
    List.Forall₂ (fun w group => generateDemarshall ceilLog w = some group)
      (argWords ceilLog params) info.paramStructDemarshall.reverse := by
  simp only [gatherMethodInfo, hSome, if_false, firing] at h
  obtain ⟨calls, hCalls, groups, hGroups, rfl⟩ := h
  rw [List.reverse_reverse, List.reverse_reverse]
  exact ⟨mapM_eq_some.mp hCalls, mapM_eq_some.mp hGroups⟩

theorem proxyWords_run (hSome : argWords ceilLog params ≠ [])
    (h : proxyWords ceilLog params args = some xs) :
    List.Forall₂ (fun w x => ∃ call, generateMarshall ceilLog w = some call ∧
      call.run ceilLog args = some x) (argWords ceilLog params) xs.reverse := by
  simp only [proxyWords, firing] at h
  obtain ⟨info, hInfo, hRun⟩ := h
  have hCalls := (gatherMethodInfo_eq_some hSome hInfo).1
  have hWords := List.forall₂_reverse_iff.mpr (mapM_eq_some.mp hRun)
  rw [List.forall₂_iff_get] at hCalls hWords ⊢
  refine ⟨hCalls.1.trans hWords.1, fun i hw hx => ⟨_, hCalls.2 i hw (hCalls.1 ▸ hw), ?_⟩⟩
  exact hWords.2 i (hCalls.1 ▸ hw) hx

variable {obj obj' : Member → Option C.Value} {tmp : BitVec 32}

theorem eval_marshallField_congr {off : Nat} {e : ParamInfo} (h : obj e.toMember = obj' e.toMember) :
    (marshallField ceilLog off e).eval obj tmp = (marshallField ceilLog off e).eval obj' tmp := by
  unfold marshallField
  split_ifs <;> simp only [CExpr.eval, h]

theorem eval_foldl_or_congr {first : CExpr}
    {fields : List CExpr} (h : ∀ e ∈ first :: fields, e.eval obj tmp = e.eval obj' tmp) :
    (fields.foldl CExpr.or first).eval obj tmp = (fields.foldl CExpr.or first).eval obj' tmp := by
  induction fields generalizing first with
  | nil => exact h first List.mem_cons_self
  | cons field rest ih =>
    apply ih
    intro e he
    rcases List.mem_cons.mp he with rfl | he
    · simp only [CExpr.eval, h first List.mem_cons_self,
        h field (List.mem_cons_of_mem _ List.mem_cons_self)]
    · exact h e (List.mem_cons_of_mem _ (List.mem_cons_of_mem _ he))

theorem marshallFields_congr
    {w : List ParamInfo} {off : Nat} {fd : Bool} {word : List CExpr} {call : WriteCall}
    (h : marshallFields ceilLog off fd word w = some call)
    (hWord : ∀ e ∈ word, e.eval obj tmp = e.eval obj' tmp)
    (hObj : ∀ e ∈ w, obj e.toMember = obj' e.toMember) :
    call.value.eval obj tmp = call.value.eval obj' tmp := by
  induction w generalizing off fd word with
  | nil =>
    cases word with
    | nil => simp [marshallFields] at h
    | cons field fields =>
      simp only [marshallFields, Option.some.injEq] at h
      subst h
      exact eval_foldl_or_congr hWord
  | cons e rest ih =>
    simp only [marshallFields, firing] at h
    obtain ⟨cname, -, h⟩ := h
    by_cases hFloat : cname = .float
    · simp only [hFloat, if_true, firing] at h
      subst h
      simp only [CExpr.eval, hObj e List.mem_cons_self]
    · simp only [hFloat, if_false] at h
      refine ih h ?_ fun e' he' => hObj e' (List.mem_cons_of_mem _ he')
      intro e' he'
      rcases List.mem_append.mp he' with he' | he'
      · exact hWord e' he'
      · rw [List.mem_singleton.mp he']
        exact eval_marshallField_congr (hObj e List.mem_cons_self)

/-- A proxy sees of its arguments the C objects only. -/
theorem proxyWords_congr {args' : Args} {ys : List (BitVec 32)}
    (hSome : argWords ceilLog params ≠ [])
    (hEq : ∀ m ∈ argAtoms params, argument ceilLog args m = argument ceilLog args' m)
    (h : proxyWords ceilLog params args = some xs) (h' : proxyWords ceilLog params args' = some ys) :
    xs = ys := by
  have hRun := proxyWords_run hSome h
  have hRun' := proxyWords_run hSome h'
  rw [List.forall₂_iff_get] at hRun hRun'
  apply List.reverse_injective
  apply List.ext_get (hRun.1.symm.trans hRun'.1)
  intro i hx hy
  obtain ⟨call, hCall, hValue⟩ := hRun.2 i (hRun.1 ▸ hx) hx
  obtain ⟨call', hCall', hValue'⟩ := hRun'.2 i (hRun.1 ▸ hx) hy
  obtain rfl : call = call' := Option.some.inj (hCall.symm.trans hCall')
  have hSame : call.value.eval (argument ceilLog args) 0#32 =
      call.value.eval (argument ceilLog args') 0#32 :=
    marshallFields_congr hCall (by simp) fun e he => hEq _ (mem_argAtoms (List.get_mem _ _) he)
  rw [WriteCall.run, hSame] at hValue
  exact Option.some.inj (hValue.symm.trans hValue')

variable {group : List Assignment}

theorem exists_group_run {groups : List (List Assignment)} {start : Vars}
    (h : runHandler ceilLog fd groups xs start = some vars) (hGroup : group ∈ groups) :
    ∃ tmp before after, group.foldlM (Assignment.run ceilLog fd tmp) before = some after := by
  induction groups generalizing xs start with
  | nil => simp at hGroup
  | cons first rest ih =>
    cases xs with
    | nil => simp [runHandler] at h
    | cons tmp xs =>
      simp only [runHandler, firing] at h
      obtain ⟨after, hFirst, hRest⟩ := h
      rcases List.mem_cons.mp hGroup with rfl | hGroup
      · exact ⟨tmp, start, after, hFirst⟩
      · exact ih hRest hGroup

theorem exists_assignment_run {before after : Vars}
    (h : group.foldlM (Assignment.run ceilLog fd tmp) before = some after) {a : Assignment}
    (ha : a ∈ group) : ∃ before' after', a.run ceilLog fd tmp before' = some after' := by
  induction group generalizing before with
  | nil => simp at ha
  | cons first rest ih =>
    simp only [List.foldlM_cons, firing] at h
    obtain ⟨middle, hFirst, hRest⟩ := h
    rcases List.mem_cons.mp ha with rfl | ha
    · exact ⟨before, middle, hFirst⟩
    · exact ih hRest ha

theorem typeCName_eq_float {a : Atom} : typeCName a = some .float ↔ a = .float := by
  cases a with
  | bit n | int n | uint n =>
    simp only [typeCName]
    split_ifs <;> simp
  | _ => simp [typeCName]

theorem typeCName_eq_sendingFd {a : Atom} : typeCName a = some .sendingFd ↔ a = .sendingFd := by
  cases a with
  | bit n | int n | uint n =>
    simp only [typeCName]
    split_ifs <;> simp
  | _ => simp [typeCName]

theorem exists_value_assignment {w : List ParamInfo} {off : Nat}
    (h : demarshallFields ceilLog off w = some group) {e : ParamInfo} (he : e ∈ w)
    (hFloat : e.datatype ≠ .float) (hFd : e.datatype ≠ .sendingFd) :
    ∃ op expr, Assignment.value e.toMember op expr ∈ group := by
  induction w generalizing off group with
  | nil => simp at he
  | cons first rest ih =>
    simp only [demarshallFields, firing] at h
    obtain ⟨cname, hName, h⟩ := h
    by_cases hc : cname = .float
    · simp only [hc, if_true, firing] at h
      obtain ⟨more, hMore, rfl⟩ := h
      rcases List.mem_cons.mp he with rfl | he
      · exact absurd (typeCName_eq_float.mp (hc ▸ hName)) hFloat
      · obtain ⟨op, expr, hIn⟩ := ih hMore he
        exact ⟨op, expr, List.mem_cons_of_mem _ hIn⟩
    · simp only [hc, if_false, firing] at h
      obtain ⟨more, hMore, rfl⟩ := h
      rcases List.mem_cons.mp he with rfl | he
      · have hc' : cname ≠ .sendingFd :=
          fun hc' => hFd (typeCName_eq_sendingFd.mp (hc' ▸ hName))
        simp only [hc', if_false]
        exact ⟨_, _, List.mem_cons_self⟩
      · obtain ⟨op, expr, hIn⟩ := ih hMore he
        exact ⟨op, expr, List.mem_cons_of_mem _ hIn⟩

theorem exists_storage_of_handleMessage (hNames : ((argAtoms params).map Member.name).Nodup)
    (h : handleMessage ceilLog params fd xs = some vars) {m : Member} (hm : m ∈ argAtoms params)
    (hPos : 0 < m.bitWidth ceilLog) (hFloat : m.datatype ≠ .float)
    (hFd : m.datatype ≠ .sendingFd) : ∃ t, m.storage ceilLog = some t := by
  obtain ⟨k, off, e, ⟨pre, post, hw, -⟩, rfl, -⟩ :=
    (argWords_cut ceilLog params).exists_place hNames hm hPos
  have hSome : argWords ceilLog params ≠ [] := List.ne_nil_of_mem (List.mem_of_getElem? hw)
  simp only [handleMessage, firing] at h
  obtain ⟨info, hInfo, hRun⟩ := h
  obtain ⟨group, hGroup, hGen⟩ := exists_of_mem_right
    (gatherMethodInfo_eq_some hSome hInfo).2.flip (List.mem_of_getElem? hw)
  obtain ⟨tmp, before, after, hFold⟩ := exists_group_run hRun (List.mem_reverse.mp hGroup)
  obtain ⟨op, expr, hIn⟩ := exists_value_assignment hGen
    (List.mem_append_right pre List.mem_cons_self) hFloat hFd
  obtain ⟨before', after', hValue⟩ := exists_assignment_run hFold hIn
  simp only [Assignment.run, firing] at hValue
  obtain ⟨t, ht, -⟩ := hValue
  exact ⟨t, ht⟩

/-- No bit vector of more than 64 bits passes. -/
theorem MessageAgrees.bit_le (h : MessageAgrees ceilLog params args fd)
    (hNames : ((argAtoms params).map Member.name).Nodup) {m : Member} (hm : m ∈ argAtoms params)
    {n : Nat} (hBit : m.datatype = .bit n) : n ≤ 64 := by
  by_contra hLarge
  obtain ⟨vars, hRun, -⟩ := h.handler
  have hPos : 0 < m.bitWidth ceilLog := by
    simp only [Member.bitWidth, hBit, typeBitWidth]
    omega
  obtain ⟨t, ht⟩ := exists_storage_of_handleMessage hNames hRun hm hPos (by simp [hBit])
    (by simp [hBit])
  simp [Member.storage, hBit, typeCName, CName.intType, show ¬ n ≤ 32 by omega, hLarge] at ht

end Connectal
