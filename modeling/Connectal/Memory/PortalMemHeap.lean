import Connectal.Memory.PortalMem
import Mathlib.Algebra.Ring.Nat
import Mathlib.Data.BitVec

/-! The heap objects of `portalmem_dmabuffer_create`: what it allocates, accesses and frees, on
all paths that the page allocator and `sg_alloc_table` can lead to. -/
namespace Connectal.PortalMem

/-- The objects of one call. Runs of pages and their records are numbered as in the list. -/
inductive Object where
  | buffer
  | table
  | page (k : Nat)
  | pageInfo (k : Nat)
  deriving DecidableEq

inductive HeapEvent where
  | alloc (o : Object)
  | free (o : Object)
  | access (o : Object)
  deriving DecidableEq

/-- Number `k` is appended to the list; `list_add_tail` writes to the last record, too. -/
def addPages (k : Nat) : List HeapEvent :=
  [.alloc (.page k), .alloc (.pageInfo k), .access (.pageInfo k)] ++ if k = 0 then [] else [.access (.pageInfo (k - 1))]

/-- The allocation loop with the list `pages`, and `info` as far as it is used: whether the last
round got pages. -/
def allocLoop (allocPages : AllocPages) (sizeRemaining : Int) (maxOrder calls : Nat) (pages : List PageInfo)
    (info : Bool) : List PageInfo × Bool × List HeapEvent :=
  if 0 < sizeRemaining then
    match tryOrders allocPages sizeRemaining maxOrder orders calls with
    | (none, _) => (pages, false, [])
    | (some info, calls) =>
      let (pages', info', events) :=
        allocLoop allocPages (sizeRemaining - info.bytes) info.order calls (pages ++ [info]) true
      (pages', info', addPages pages.length ++ events)
  else (pages, info, [])
termination_by sizeRemaining.toNat
decreasing_by
  have hPos := info.bytes_pos
  omega

/-- `list_for_each_entry_safe` has read the next record when it frees one, which `list_del` takes
out of the list first. -/
def fillTable : Nat → List PageInfo → List HeapEvent
  | _, [] => []
  | k, _ :: rest =>
    [.access (.pageInfo k), .access .table] ++ (if rest = [] then [] else [.access (.pageInfo (k + 1))]) ++
      .free (.pageInfo k) :: fillTable (k + 1) rest

/-- `list_for_each_entry` looks for the next record in the one that was just freed. -/
def freePages : Nat → List PageInfo → List HeapEvent
  | _, [] => []
  | k, _ :: rest =>
    .access (.pageInfo k) :: .free (.page k) :: .free (.pageInfo k) :: .access (.pageInfo k) :: freePages (k + 1) rest

inductive Return where
  | fd
  | enomem
  deriving DecidableEq

/-- The function with all that it does to its objects. -/
def dmabufferCreateHeap (allocPages : AllocPages) (sgAllocTable : Bool) (len : BitVec 64) : Return × List HeapEvent :=
  let (pages, info, events) := allocLoop allocPages (pageAlign (roundUp len 4096)).toInt 8 0 [] false
  let events := [.alloc .buffer, .alloc .table] ++ events
  if info then
    if sgAllocTable then (.fd, events ++ [.access .table] ++ fillTable 0 pages ++ [.access .buffer, .access .table])
    else (.enomem, events ++ [.access .table, .free .table] ++ freePages 0 pages ++ [.free .buffer])
  else (.enomem, events ++ freePages 0 pages ++ [.free .buffer])

/-- Every object is freed once and not accessed after that. -/
structure Clean (events : List HeapEvent) : Prop where
  freed : ∀ o, .alloc o ∈ events → events.count (.free o) = 1
  unused : ∀ o before after, events = before ++ .free o :: after → .access o ∉ after

/-- The orders that a round asks for when `n` pages are missing. -/
def asked (n maxOrder : Nat) : List Nat := orders.filter fun order => 2 ^ order ≤ n ∧ order ≤ maxOrder

/-- The page allocator grants `n` pages, from request number `calls` on: in every round it may
refuse some orders and then grants one. -/
inductive Granted (allocPages : AllocPages) : Nat → Nat → Nat → Prop where
  | done {maxOrder calls : Nat} : Granted allocPages 0 maxOrder calls
  | round {n maxOrder calls order : Nat} {page : BitVec 64} {refused later : List Nat}
      (hAsked : asked (n + 1) maxOrder = refused ++ order :: later)
      (hRefused : ∀ i o, refused[i]? = some o → allocPages (calls + i) o = none)
      (hGrant : allocPages (calls + refused.length) order = some page)
      (rest : Granted allocPages (n + 1 - 2 ^ order) order (calls + refused.length + 1)) :
      Granted allocPages (n + 1) maxOrder calls

variable {allocPages : AllocPages} {maxOrder calls calls' k n : Nat} {pages : List PageInfo} {info : PageInfo} {o : Object}

theorem tryOrders_iff {candidates : List Nat} :
    tryOrders allocPages (pageSize * n : Nat) maxOrder candidates calls = (some info, calls') ↔
      ∃ refused later, candidates.filter (fun order => 2 ^ order ≤ n ∧ order ≤ maxOrder) = refused ++ info.order :: later ∧
        (∀ i o, refused[i]? = some o → allocPages (calls + i) o = none) ∧
        allocPages (calls + refused.length) info.order = some info.page ∧ calls' = calls + refused.length + 1 := by
  induction candidates generalizing calls with
  | nil => simp [tryOrders]
  | cons order rest ih =>
    have hFits : ((pageSize <<< order : Nat) : Int) ≤ (pageSize * n : Nat) ↔ 2 ^ order ≤ n := by
      rw [Nat.shiftLeft_eq, Int.ofNat_le]
      exact Nat.mul_le_mul_left_iff (by decide)
    rw [tryOrders, List.filter_cons]
    by_cases hOrder : 2 ^ order ≤ n ∧ order ≤ maxOrder
    · rw [if_pos ⟨hFits.mpr hOrder.1, hOrder.2⟩, if_pos (by simpa using hOrder)]
      cases hPage : allocPages calls order with
      | some page =>
        simp only [Prod.mk.injEq, Option.some.injEq]
        constructor
        · rintro ⟨rfl, rfl⟩
          exact ⟨[], _, rfl, by simp, hPage, rfl⟩
        · rintro ⟨refused, later, hSplit, hRefused, hGrant, rfl⟩
          cases refused with
          | nil =>
            obtain ⟨hHead, -⟩ := List.cons.inj hSplit
            rw [List.length_nil, Nat.add_zero, ← hHead, hPage] at hGrant
            exact ⟨by rw [hHead, Option.some.inj hGrant], rfl⟩
          | cons first refused =>
            obtain ⟨rfl, -⟩ := List.cons.inj hSplit
            have hNone := hRefused 0 order rfl
            rw [Nat.add_zero, hPage] at hNone
            cases hNone
      | none =>
        simp only [ih]
        constructor
        · rintro ⟨refused, later, hSplit, hRefused, hGrant, rfl⟩
          refine ⟨order :: refused, later, by rw [hSplit]; rfl, ?_, ?_, ?_⟩
          · rintro (_ | i) o ho
            · cases ho
              exact hPage
            · rw [Nat.add_comm i 1, ← Nat.add_assoc]
              exact hRefused i o ho
          · rw [List.length_cons, Nat.add_comm refused.length 1, ← Nat.add_assoc]
            exact hGrant
          · rw [List.length_cons]
            omega
        · rintro ⟨refused, later, hSplit, hRefused, hGrant, rfl⟩
          cases refused with
          | nil =>
            obtain ⟨hHead, -⟩ := List.cons.inj hSplit
            rw [List.length_nil, Nat.add_zero, ← hHead, hPage] at hGrant
            cases hGrant
          | cons first refused =>
            obtain ⟨-, hSplit⟩ := List.cons.inj hSplit
            refine ⟨refused, later, hSplit, fun i o ho => ?_, ?_, ?_⟩
            · have hNone := hRefused (i + 1) o ho
              rwa [Nat.add_comm i 1, ← Nat.add_assoc] at hNone
            · rwa [List.length_cons, Nat.add_comm refused.length 1, ← Nat.add_assoc] at hGrant
            · rw [List.length_cons]
              omega
    · rw [if_neg (by rwa [hFits]), if_neg (by simpa using hOrder), ih]

theorem PageInfo.bytes_eq (info : PageInfo) : info.bytes = pageSize * 2 ^ info.order := by
  rw [PageInfo.bytes, Nat.one_shiftLeft, Nat.mul_comm]

theorem allocate_isSome_iff : (allocate allocPages (pageSize * n : Nat) maxOrder calls).isSome ↔
    Granted allocPages n maxOrder calls := by
  induction n using Nat.strong_induction_on generalizing maxOrder calls with
  | _ n ih =>
    rw [allocate]
    cases n with
    | zero => exact ⟨fun _ => .done, fun _ => rfl⟩
    | succ n =>
      have hNext (info : PageInfo) (hLe : 2 ^ info.order ≤ n + 1) :
          ((pageSize * (n + 1) : Nat) : Int) - info.bytes = (pageSize * (n + 1 - 2 ^ info.order) : Nat) := by
        rw [info.bytes_eq, Nat.mul_sub, Int.ofNat_sub (Nat.mul_le_mul_left _ hLe)]
      have hLe {refused later : List Nat} {order : Nat} (h : asked (n + 1) maxOrder = refused ++ order :: later) :
          2 ^ order ≤ n + 1 := by
        have hMem : order ∈ asked (n + 1) maxOrder := by simp [h]
        simpa using And.left (by simpa [asked] using (List.mem_filter.mp hMem).2 : 2 ^ order ≤ n + 1 ∧ _)
      have hLess (order : Nat) : n + 1 - 2 ^ order < n + 1 := Nat.sub_lt (Nat.succ_pos n) (Nat.two_pow_pos order)
      rw [if_pos (by simp only [pageSize]; omega)]
      constructor
      · intro hSome
        split at hSome
        · cases hSome
        · next info calls' hTry =>
          obtain ⟨refused, later, hAsked, hRefused, hGrant, rfl⟩ := tryOrders_iff.mp hTry
          rw [Option.isSome_map, hNext info (hLe hAsked)] at hSome
          exact .round hAsked hRefused hGrant ((ih _ (hLess _)).mp hSome)
      · intro h
        cases h with
        | @round n maxOrder calls order page refused later hAsked hRefused hGrant rest =>
          have hTry : tryOrders allocPages (pageSize * (n + 1) : Nat) maxOrder orders calls =
              (some ⟨page, order⟩, calls + refused.length + 1) :=
            tryOrders_iff.mpr ⟨refused, later, hAsked, hRefused, hGrant, rfl⟩
          rw [hTry]
          simp only [Option.isSome_map]
          rw [hNext ⟨page, order⟩ (hLe hAsked)]
          exact (ih _ (hLess _)).mpr rest

/-! ### The size of the buffer -/

theorem toNat_and_not (a : BitVec 64) : (a &&& ~~~(4095 : BitVec 64)).toNat = a.toNat / 4096 * 4096 := by
  have hShift : a &&& ~~~(4095 : BitVec 64) = (a >>> 12) <<< 12 := by
    apply BitVec.eq_of_getLsbD_eq
    intro i hi
    have hMask : (4095 : BitVec 64).getLsbD i = decide (i < 12) := by
      show (BitVec.ofNat 64 (2 ^ 12 - 1)).getLsbD i = _
      rw [BitVec.getLsbD_ofNat, Nat.testBit_two_pow_sub_one]
      simp [hi]
    simp only [BitVec.getLsbD_and, BitVec.getLsbD_not, hMask, BitVec.getLsbD_shiftLeft, BitVec.getLsbD_ushiftRight, hi,
      decide_true, Bool.true_and]
    by_cases hLow : i < 12
    · simp [hLow]
    · simp [hLow, Nat.add_sub_cancel' (Nat.le_of_not_lt hLow)]
  have hBound := a.isLt
  rw [hShift, BitVec.toNat_shiftLeft, BitVec.toNat_ushiftRight, Nat.shiftLeft_eq, Nat.shiftRight_eq_div_pow]
  omega

theorem toNat_or (a : BitVec 64) : (a ||| 4095).toNat = a.toNat / 4096 * 4096 + 4095 := by
  have hParts : a ||| 4095 = (a &&& ~~~(4095 : BitVec 64)) + 4095 := by
    rw [BitVec.add_eq_or_of_and_eq_zero]
    all_goals
      apply BitVec.eq_of_getLsbD_eq
      intro i hi
      simp only [BitVec.getLsbD_or, BitVec.getLsbD_and, BitVec.getLsbD_not, BitVec.getLsbD_zero, hi, decide_true]
      cases a.getLsbD i <;> cases (4095 : BitVec 64).getLsbD i <;> rfl
  have hBound := a.isLt
  rw [hParts, BitVec.toNat_add, toNat_and_not]
  show (_ + 4095) % 2 ^ 64 = _
  omega

/-- The lengths for which the rounded length is a positive `long`. -/
def Reasonable (len : BitVec 64) : Prop := 0 < len.toNat ∧ len.toNat ≤ 2 ^ 63 - 4096

/-- The length in pages. -/
def pageCount (len : BitVec 64) : Nat := (len.toNat + 4095) / 4096

theorem alignedSize_eq (len : BitVec 64) : (Reasonable len →
      (pageAlign (roundUp len 4096)).toInt = (pageSize * pageCount len : Nat)) ∧
    (¬ Reasonable len → (pageAlign (roundUp len 4096)).toInt ≤ 0) := by
  have hBound := len.isLt
  have hRound : (roundUp len 4096).toNat = ((len.toNat + 2 ^ 64 - 1) % 2 ^ 64 / 4096 * 4096 + 4096) % 2 ^ 64 := by
    show (((len - 1) ||| 4095) + 1).toNat = _
    rw [BitVec.toNat_add, toNat_or, BitVec.toNat_sub]
    show (_ / 4096 * 4096 + 4095 + 1) % _ = _
    rw [show 2 ^ 64 - (1 : BitVec 64).toNat + len.toNat = len.toNat + 2 ^ 64 - 1 by
      show 2 ^ 64 - 1 + _ = _
      omega]
  have hSize : (pageAlign (roundUp len 4096)).toNat = ((roundUp len 4096).toNat + 4095) % 2 ^ 64 / 4096 * 4096 := by
    rw [pageAlign, toNat_and_not, BitVec.toNat_add]
    rfl
  rw [BitVec.toInt_eq_toNat_cond, hSize, hRound, Reasonable, pageSize, pageCount]
  constructor
  · rintro ⟨hPos, hLe⟩
    split <;> omega
  · intro hNot
    split <;> omega

/-! ### The events -/

/-- The runs of pages and records from number `k` on. -/
def Listed (k n : Nat) : Object → Prop
  | .page j | .pageInfo j => k ≤ j ∧ j < k + n
  | .buffer | .table => False

instance (k n : Nat) : DecidablePred (Listed k n)
  | .page j | .pageInfo j => inferInstanceAs (Decidable (k ≤ j ∧ j < k + n))
  | .buffer | .table => .isFalse id

/-- What the loop does to append a list. -/
def addAll : Nat → List PageInfo → List HeapEvent
  | _, [] => []
  | k, _ :: rest => addPages k ++ addAll (k + 1) rest

theorem listed_succ : Listed k (n + 1) o ↔ (o = .page k ∨ o = .pageInfo k) ∨ Listed (k + 1) n o := by
  cases o <;> simp [Listed]
  all_goals omega

theorem not_listed_zero : ¬ Listed k 0 o := by
  cases o <;> simp [Listed]

theorem mem_addAll : .alloc o ∈ addAll k pages ↔ Listed k pages.length o := by
  induction pages generalizing k with
  | nil => exact iff_of_false List.not_mem_nil not_listed_zero
  | cons info rest ih =>
    have hHere : .alloc o ∈ addPages k ↔ o = .page k ∨ o = .pageInfo k := by
      unfold addPages
      split <;> simp
    rw [addAll, List.mem_append, ih, hHere, List.length_cons, listed_succ]

theorem count_addAll : (addAll k pages).count (.free o) = 0 := by
  induction pages generalizing k with
  | nil => rfl
  | cons info rest ih =>
    have hHere : .free o ∉ addPages k := by
      unfold addPages
      split <;> simp
    rw [addAll, List.count_append, ih, List.count_eq_zero.mpr hHere]

theorem mem_freePages : .alloc o ∉ freePages k pages := by
  induction pages generalizing k with
  | nil => exact List.not_mem_nil
  | cons info rest ih => simp [freePages, ih]

theorem mem_fillTable : .alloc o ∉ fillTable k pages := by
  induction pages generalizing k with
  | nil => exact List.not_mem_nil
  | cons info rest ih =>
    unfold fillTable
    split <;> simp [ih]

theorem count_freePages : (freePages k pages).count (.free o) = if Listed k pages.length o then 1 else 0 := by
  induction pages generalizing k with
  | nil => rw [if_neg (show ¬ Listed k [].length o from not_listed_zero)]; rfl
  | cons info rest ih =>
    simp only [freePages, List.count_cons, ih, List.length_cons, listed_succ]
    by_cases hLater : Listed (k + 1) rest.length o
    · have hApart : .page k ≠ o ∧ .pageInfo k ≠ o := by
        constructor <;> rintro rfl <;> exact absurd hLater.1 (Nat.not_succ_le_self k)
      simp [hLater, hApart]
    · have hComm (j : Nat) : k = j ↔ j = k := eq_comm
      cases o <;> simp [hLater, hComm]

/-- The loop appends a list that is no longer than the size allows. At its end `info` is set if the
other model of the loop gets all pages and there is at least one. -/
theorem allocLoop_spec (allocPages : AllocPages) (sizeRemaining : Int) (maxOrder calls : Nat) (pages : List PageInfo) (info : Bool) :
    ∃ got info', allocLoop allocPages sizeRemaining maxOrder calls pages info =
        (pages ++ got, info', addAll pages.length got) ∧
      (info' = true ↔ (allocate allocPages sizeRemaining maxOrder calls).isSome ∧ (sizeRemaining ≤ 0 → info = true)) ∧
      (info' = true → info = true ∨ got ≠ []) ∧
      ∀ k < got.length, ((pageSize * (k + 1) : Nat) : Int) ≤ sizeRemaining := by
  fun_induction allocLoop allocPages sizeRemaining maxOrder calls pages info with
  | case1 sizeRemaining maxOrder calls pages info hPos _ hTry =>
    refine ⟨[], false, by simp [addAll], ?_, by simp, fun k hk => absurd hk (Nat.not_lt_zero k)⟩
    rw [allocate, if_pos hPos, hTry]
    simp
  | case2 sizeRemaining maxOrder calls pages info hPos got calls' hTry pages' info' events hRest ih =>
    obtain ⟨more, _, hLoop, hInfo, -, hSize⟩ := ih
    obtain ⟨rfl, rfl, rfl⟩ : pages' = _ ∧ info' = _ ∧ events = _ := by simpa using hRest.symm.trans hLoop
    refine ⟨got :: more, info', ?_, ?_, fun _ => .inr (List.cons_ne_nil _ _), ?_⟩
    · simp [addAll]
    · rw [allocate, if_pos hPos, hTry]
      refine hInfo.trans ?_
      have hNot : ¬ sizeRemaining ≤ 0 := by omega
      simp [hNot]
    · have hBytes := (tryOrders_eq_some hTry).2.2.1
      have hUnit : pageSize * 1 ≤ got.bytes := by
        rw [got.bytes_eq]
        exact Nat.mul_le_mul_left _ (Nat.two_pow_pos _)
      rintro (_ | k) hk
      · omega
      · have hNext := hSize k (Nat.lt_of_succ_lt_succ hk)
        rw [Nat.mul_succ pageSize (k + 1)]
        omega
  | case3 sizeRemaining maxOrder calls pages info hPos =>
    refine ⟨[], info, by simp [addAll], ?_, .inl, fun k hk => absurd hk (Nat.not_lt_zero k)⟩
    rw [allocate, if_neg hPos]
    simp only [Option.isSome_some, true_and]
    exact ⟨fun h _ => h, fun h => h (by omega)⟩

/-- The loop of a call: the pages that it gets, and whether they are enough. -/
theorem allocLoop_create (allocPages : AllocPages) (len : BitVec 64) : ∃ got info,
    allocLoop allocPages (pageAlign (roundUp len 4096)).toInt 8 0 [] false = (got, info, addAll 0 got) ∧
      (info = true ↔ Reasonable len ∧ Granted allocPages (pageCount len) 8 0) ∧ (info = true → got ≠ []) ∧
      ∀ k < got.length, pageSize * (k + 1) ≤ len.toNat + 4095 := by
  obtain ⟨hSize, hNone⟩ := alignedSize_eq len
  obtain ⟨got, info, hLoop, hInfo, hSome, hLength⟩ :=
    allocLoop_spec allocPages (pageAlign (roundUp len 4096)).toInt 8 0 [] false
  refine ⟨got, info, hLoop, ?_, fun h => (hSome h).resolve_left Bool.false_ne_true, fun k hk => ?_⟩
  · by_cases hLen : Reasonable len
    · have hPos : ¬ ((pageSize * pageCount len : Nat) : Int) ≤ 0 := by
        have hLess := hLen.1
        rw [pageSize, pageCount]
        omega
      rw [hSize hLen, allocate_isSome_iff] at hInfo
      exact hInfo.trans ⟨fun h => ⟨hLen, h.1⟩, fun h => ⟨h.2, fun hZero => absurd hZero hPos⟩⟩
    · refine hInfo.trans (iff_of_false (fun h => ?_) fun h => hLen h.1)
      cases h.2 (hNone hLen)
  · have hRound := hLength k hk
    rw [pageSize] at hRound ⊢
    by_cases hLen : Reasonable len
    · rw [hSize hLen, pageCount, pageSize] at hRound
      omega
    · have hZero := hNone hLen
      omega

theorem not_clean_of_leak {events : List HeapEvent} (hAlloc : .alloc o ∈ events) (hNever : events.count (.free o) = 0) :
    ¬ Clean events := fun h => by
  have hOnce := h.freed o hAlloc
  omega

/-- The events of a path to `-ENOMEM`, on which `sg_alloc_table` may have failed. -/
def enomemEvents (pages : List PageInfo) (middle : List HeapEvent) : List HeapEvent :=
  [.alloc .buffer, .alloc .table] ++ addAll 0 pages ++ middle ++ freePages 0 pages ++ [.free .buffer]

/-- The pages, their records and the buffer are freed once. The table is not freed if pages are
missing, and a record is accessed after it was freed if there are any. -/
theorem enomemEvents_spec (pages : List PageInfo) {middle : List HeapEvent}
    (hMiddle : middle = [] ∨ pages ≠ [] ∧ middle = [.access .table, .free .table]) :
    (∀ o ≠ .table, .alloc o ∈ enomemEvents pages middle → (enomemEvents pages middle).count (.free o) = 1) ∧
      ¬ Clean (enomemEvents pages middle) := by
  constructor
  · intro o ho hMem
    have hNone : middle.count (.free o) = 0 ∧ .alloc o ∉ middle := by
      rcases hMiddle with rfl | ⟨-, rfl⟩
      · exact ⟨rfl, List.not_mem_nil⟩
      · simp [ho.symm]
    simp only [enomemEvents, List.mem_append, mem_addAll, hNone.2, mem_freePages, or_false] at hMem
    simp only [enomemEvents, List.count_append, count_addAll, count_freePages, hNone.1]
    cases o with
    | buffer => simp [Listed]
    | table => exact absurd rfl ho
    | page j | pageInfo j =>
      rw [if_pos (by simpa using hMem)]
      simp
  · rcases hMiddle with rfl | ⟨hSome, rfl⟩
    · refine not_clean_of_leak (o := .table) (by simp [enomemEvents]) ?_
      simp [enomemEvents, count_addAll, count_freePages, Listed]
    · obtain ⟨info, rest, rfl⟩ := List.exists_cons_of_ne_nil hSome
      intro h
      refine h.unused (.pageInfo 0) ([.alloc .buffer, .alloc .table] ++ addAll 0 (info :: rest) ++
        [.access .table, .free .table] ++ [.access (.pageInfo 0), .free (.page 0)])
        (.access (.pageInfo 0) :: freePages 1 rest ++ [.free .buffer]) ?_ (by simp)
      simp [enomemEvents, freePages]

end Connectal.PortalMem
