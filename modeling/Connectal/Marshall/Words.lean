import Connectal.Marshall.Types

/-! How the interface compiler distributes the members of a message over words. -/
namespace Connectal

open Layout

/-- How the receiver assigns a piece of a member: `=` or `|=`. -/
inductive AssignOp where
  | assign
  | orAssign
  deriving DecidableEq, Repr

/-- The bits of a member from `shifted` up to but not including `width`. -/
structure ParamInfo extends Member where
  width : Nat
  shifted : Nat
  assignOp : AssignOp
  deriving DecidableEq, Repr

namespace ParamInfo

def len (e : ParamInfo) : Nat := e.width - e.shifted

def piece (e : ParamInfo) : Piece Member := ⟨e.toMember, e.shifted, e.width⟩

end ParamInfo

/-- A word that is being filled. There is always room in it. -/
structure Bin where
  items : List ParamInfo
  room : span ParamInfo.len items < 32

def Bin.empty : Bin := ⟨[], by decide⟩

/-- Pack the flattened members into 32-bit words, where `s` is the current word and
`pro` the number of bits of the first member that are already in earlier words. -/
def accumWords (ceilLog : Nat → Nat) (s : Bin) (pro : Nat) :
    List Member → List (List ParamInfo)
  | [] => if s.items = [] then [] else [s.items]
  | m :: rest =>
    let w := span ParamInfo.len s.items
    let aw := typeBitWidth ceilLog m.datatype
    if aw - pro + w = 32 then
      (s.items ++ [⟨m, aw, pro, .assign⟩]) :: accumWords ceilLog .empty 0 rest
    else if h : aw - pro + w < 32 then
      accumWords ceilLog ⟨s.items ++ [⟨m, aw, pro, .assign⟩], by
        simp only [span_append, span_cons, span_nil, ParamInfo.len]; omega⟩ 0 rest
    else
      (s.items ++ [⟨m, pro + (32 - w), pro, .orAssign⟩]) ::
        accumWords ceilLog .empty (pro + (32 - w)) (m :: rest)
termination_by members => (members.length, (members.head?.map fun m =>
  typeBitWidth ceilLog m.datatype).getD 0 - pro)
decreasing_by
  · exact Prod.Lex.left _ _ (Nat.lt_succ_self _)
  · exact Prod.Lex.left _ _ (Nat.lt_succ_self _)
  · have hRoom := s.room
    refine Prod.Lex.right _ ?_
    simp only [List.head?_cons, Option.map_some, Option.getD_some]
    omega

variable {ceilLog : Nat → Nat} {m : Member}

theorem accumWords_room {s : Bin} {pro : Nat} {rest : List Member}
    (h : span ParamInfo.len (s.items ++ [⟨m, typeBitWidth ceilLog m.datatype, pro, .assign⟩]) < 32) :
    accumWords ceilLog s pro (m :: rest) =
      accumWords ceilLog ⟨s.items ++ [⟨m, typeBitWidth ceilLog m.datatype, pro, .assign⟩], h⟩ 0 rest := by
  have hSum : typeBitWidth ceilLog m.datatype - pro + span ParamInfo.len s.items < 32 := by
    simp only [span_append, span_cons, span_nil, ParamInfo.len] at h
    omega
  rw [accumWords, if_neg (by omega), dif_pos hSum]

theorem accumWords_over {s : Bin} {pro : Nat} {rest : List Member}
    (h : 32 < typeBitWidth ceilLog m.datatype - pro + span ParamInfo.len s.items) :
    accumWords ceilLog s pro (m :: rest) =
      (s.items ++ [⟨m, pro + (32 - span ParamInfo.len s.items), pro, .orAssign⟩]) ::
        accumWords ceilLog .empty (pro + (32 - span ParamInfo.len s.items)) (m :: rest) := by
  rw [accumWords, if_neg (by omega), dif_neg (by omega)]

/-- The width that the compiler gives a member. -/
def Member.bitWidth (ceilLog : Nat → Nat) (m : Member) : Nat := typeBitWidth ceilLog m.datatype

theorem accumWords_filled (s : Bin) (pro : Nat) (members : List Member)
    (hPro : ∀ m ∈ members.head?, pro ≤ m.bitWidth ceilLog) :
    Filled ParamInfo.len 32 (accumWords ceilLog s pro members) := by
  induction s, pro, members using accumWords.induct ceilLog with
  | case1 s pro hNil =>
    rw [accumWords, if_pos hNil]
    trivial
  | case2 s pro hSome =>
    rw [accumWords, if_neg hSome]
    exact s.room.le
  | case3 s pro m rest w aw hFull ih =>
    rw [accumWords, if_pos hFull]
    refine .cons ?_ (ih (fun _ _ => Nat.zero_le _))
    simp only [span_append, span_cons, span_nil, ParamInfo.len]
    omega
  | case4 s pro m rest w aw hNotFull hLess ih =>
    rw [accumWords, if_neg hNotFull, dif_pos hLess]
    exact ih (fun _ _ => Nat.zero_le _)
  | case5 s pro m rest w aw hNotFull hNotLess ih =>
    have hRoom := s.room
    rw [accumWords, if_neg hNotFull, dif_neg hNotLess]
    refine .cons ?_ (ih ?_)
    · simp only [span_append, span_cons, span_nil, ParamInfo.len]
      omega
    · intro m' hm'
      cases hm'
      show pro + (32 - w) ≤ aw
      omega

/-- The words contain the members in order, each one without gaps. The pieces are
assigned with `=` exactly at the upper end of a member. -/
theorem accumWords_covers (s : Bin) (pro : Nat) (members : List Member)
    (hPro : ∀ m ∈ members.head?, pro = 0 ∨ pro < m.bitWidth ceilLog)
    (hNil : members = [] → pro = 0) :
    ∃ pieces, (accumWords ceilLog s pro members).flatten = s.items ++ pieces ∧
      Covers (Member.bitWidth ceilLog) pro members (pieces.map ParamInfo.piece) ∧
      ∀ e ∈ pieces, e.assignOp = .assign ↔ e.width = e.bitWidth ceilLog := by
  induction s, pro, members using accumWords.induct ceilLog with
  | case1 s pro hEmpty =>
    cases hNil rfl
    exact ⟨[], by simp [accumWords, hEmpty], .nil, by simp⟩
  | case2 s pro hSome =>
    cases hNil rfl
    exact ⟨[], by simp [accumWords, hSome], .nil, by simp⟩
  | case3 s pro m rest w aw hFull ih =>
    obtain ⟨pieces, hFlat, hCovers, hOps⟩ := ih (fun _ _ => .inl rfl) (fun _ => rfl)
    refine ⟨⟨m, aw, pro, .assign⟩ :: pieces, ?_, .last (hPro m rfl) hCovers, ?_⟩
    · rw [accumWords, if_pos hFull, List.flatten_cons, hFlat]
      simp [Bin.empty, aw]
    · intro e he
      rcases List.mem_cons.mp he with rfl | he
      · exact iff_of_true rfl rfl
      · exact hOps e he
  | case4 s pro m rest w aw hNotFull hLess ih =>
    obtain ⟨pieces, hFlat, hCovers, hOps⟩ := ih (fun _ _ => .inl rfl) (fun _ => rfl)
    refine ⟨⟨m, aw, pro, .assign⟩ :: pieces, ?_, .last (hPro m rfl) hCovers, ?_⟩
    · rw [accumWords, if_neg hNotFull, dif_pos hLess, hFlat]
      simp [aw]
    · intro e he
      rcases List.mem_cons.mp he with rfl | he
      · exact iff_of_true rfl rfl
      · exact hOps e he
  | case5 s pro m rest w aw hNotFull hNotLess ih =>
    have hRoom := s.room
    have hStop : pro + (32 - w) < aw := by omega
    obtain ⟨pieces, hFlat, hCovers, hOps⟩ :=
      ih (fun m' hm' => by cases hm'; exact .inr hStop) (fun h => by cases h)
    refine ⟨⟨m, pro + (32 - w), pro, .orAssign⟩ :: pieces, ?_,
      .part (show pro < pro + (32 - w) by omega) hStop hCovers, ?_⟩
    · rw [accumWords, if_neg hNotFull, dif_neg hNotLess, List.flatten_cons, hFlat]
      simp [Bin.empty, w]
    · intro e he
      rcases List.mem_cons.mp he with rfl | he
      · exact iff_of_false (fun h => by cases h) hStop.ne
      · exact hOps e he

/-- A word is filled from its lower end while there is room. A member goes on only at
the beginning of a word, and breaks off only at the end of a word. -/
structure Filling (ceilLog : Nat → Nat) (pre : List ParamInfo) (e : ParamInfo) : Prop where
  room : span ParamInfo.len pre < 32
  starts : 0 < e.shifted → pre = []
  ends : e.width < e.bitWidth ceilLog → span ParamInfo.len pre + e.len = 32

def WellFilled (ceilLog : Nat → Nat) (w : List ParamInfo) : Prop :=
  ∀ pre e post, w = pre ++ e :: post → Filling ceilLog pre e

variable {e : ParamInfo} {w : List ParamInfo}

theorem WellFilled.snoc (h : WellFilled ceilLog w)
    (he : Filling ceilLog w e) : WellFilled ceilLog (w ++ [e]) := by
  intro pre e' post hSplit
  rcases List.eq_nil_or_concat post with rfl | ⟨post, last, rfl⟩
  · obtain ⟨rfl, hLast⟩ := List.append_inj' hSplit rfl
    cases hLast
    exact he
  · rw [List.concat_eq_append, ← List.cons_append, ← List.append_assoc] at hSplit
    exact h pre e' post (List.append_inj' hSplit rfl).1

theorem wellFilled_empty : WellFilled ceilLog Bin.empty.items := by
  intro pre e post h
  simp [Bin.empty] at h

theorem accumWords_wellFilled (s : Bin) (pro : Nat) (members : List Member)
    (hStart : 0 < pro → s.items = []) (hs : WellFilled ceilLog s.items) :
    ∀ w ∈ accumWords ceilLog s pro members, w ≠ [] ∧ WellFilled ceilLog w := by
  induction s, pro, members using accumWords.induct ceilLog with
  | case1 s pro hNil => simp [accumWords, hNil]
  | case2 s pro hSome => simpa [accumWords, hSome] using hs
  | case3 s pro m rest w aw hFull ih =>
    rw [accumWords, if_pos hFull]
    intro word hWord
    rcases List.mem_cons.mp hWord with rfl | hWord
    · exact ⟨by simp, hs.snoc ⟨s.room, hStart, fun h => absurd h (Nat.lt_irrefl _)⟩⟩
    · exact ih (fun _ => rfl) wellFilled_empty word hWord
  | case4 s pro m rest w aw hNotFull hLess ih =>
    rw [accumWords, if_neg hNotFull, dif_pos hLess]
    exact ih (fun h => absurd h (Nat.lt_irrefl _))
      (hs.snoc ⟨s.room, hStart, fun h => absurd h (Nat.lt_irrefl _)⟩)
  | case5 s pro m rest w aw hNotFull hNotLess ih =>
    have hRoom := s.room
    rw [accumWords, if_neg hNotFull, dif_neg hNotLess]
    intro word hWord
    rcases List.mem_cons.mp hWord with rfl | hWord
    · refine ⟨by simp, hs.snoc ⟨s.room, hStart, fun _ => ?_⟩⟩
      simp only [ParamInfo.len]
      omega
    · exact ih (fun _ => rfl) wellFilled_empty word hWord

/-- What is known about the words of a list of members. -/
structure Cut (ceilLog : Nat → Nat) (members : List Member) (words : List (List ParamInfo)) :
    Prop where
  filled : Filled ParamInfo.len 32 words
  covers : Covers (Member.bitWidth ceilLog) 0 members (words.flatten.map ParamInfo.piece)
  ops : ∀ w ∈ words, ∀ e ∈ w, e.assignOp = .assign ↔ e.width = e.bitWidth ceilLog
  nonempty : ∀ w ∈ words, w ≠ []
  wellFilled : ∀ w ∈ words, WellFilled ceilLog w

theorem accumWords_cut (ceilLog : Nat → Nat) (members : List Member) :
    Cut ceilLog members (accumWords ceilLog .empty 0 members) := by
  obtain ⟨pieces, hFlat, hCovers, hOps⟩ :=
    @accumWords_covers ceilLog .empty 0 members (fun _ _ => .inl rfl) (fun _ => rfl)
  have hAll : (accumWords ceilLog .empty 0 members).flatten = pieces := hFlat
  have hWell := @accumWords_wellFilled ceilLog .empty 0 members (fun _ => rfl) wellFilled_empty
  refine ⟨accumWords_filled _ _ _ (fun _ _ => Nat.zero_le _), hAll ▸ hCovers, ?_,
    fun w hw => (hWell w hw).1, fun w hw => (hWell w hw).2⟩
  intro w hw e he
  exact hOps e (hAll ▸ List.mem_flatten.mpr ⟨w, hw, he⟩)

/-- Piece `e` lies in word number `k` at bit `off`. -/
def LiesAt (words : List (List ParamInfo)) (k off : Nat) (e : ParamInfo) : Prop :=
  ∃ pre post, words[k]? = some (pre ++ e :: post) ∧ off = span ParamInfo.len pre

variable {members : List Member} {words : List (List ParamInfo)}

theorem span_piece (items : List ParamInfo) :
    span Piece.len (items.map ParamInfo.piece) = span ParamInfo.len items := span_map _ _ _

/-- Where a piece lies is where its part of the member lies. -/
theorem Cut.located (h : Cut ceilLog members words) {k off : Nat} (he : LiesAt words k off e) :
    ∃ lower upper, members = lower ++ e.toMember :: upper ∧ e.shifted ≤ e.width ∧
      e.width ≤ e.bitWidth ceilLog ∧
      32 * k + off = span (Member.bitWidth ceilLog) lower + e.shifted ∧ off + e.len ≤ 32 := by
  obtain ⟨pre, post, hWord, rfl⟩ := he
  obtain ⟨front, back, rfl, rfl⟩ : ∃ front back,
      words = front ++ (pre ++ e :: post) :: back ∧ front.length = k := by
    obtain ⟨hk, hGet⟩ := List.getElem_of_getElem? hWord
    refine ⟨words.take k, words.drop (k + 1), ?_, by simp [hk.le]⟩
    rw [← hGet, List.getElem_cons_drop, List.take_append_drop]
  obtain ⟨hFront, hFits⟩ := h.filled.span_front
  have hPieces : (front ++ (pre ++ e :: post) :: back).flatten.map ParamInfo.piece =
      (front.flatten ++ pre).map ParamInfo.piece ++
        e.piece :: (post ++ back.flatten).map ParamInfo.piece := by
    simp
  obtain ⟨lower, upper, hMembers, hLo, hHi, hPos⟩ := h.covers.located hPieces
  refine ⟨lower, upper, hMembers, hLo, hHi, ?_, ?_⟩
  · rw [span_piece, span_append, hFront, Nat.add_zero] at hPos
    exact hPos
  · simp only [span_append, span_cons] at hFits
    omega

theorem Cut.exists_liesAt (h : Cut ceilLog members words) {lower upper : List Member}
    {q : Nat} (hMembers : members = lower ++ m :: upper) (hq : q < m.bitWidth ceilLog) :
    ∃ k off e, LiesAt words k off e ∧ e.toMember = m ∧ e.shifted ≤ q ∧ q < e.width ∧
      32 * k + off = span (Member.bitWidth ceilLog) lower + e.shifted := by
  obtain ⟨pre, p, post, hPieces, hField, hLo, hHi, hPos⟩ :=
    h.covers.exists_piece hMembers hq (Nat.zero_le _)
  obtain ⟨pre', rest, hFlat, rfl, hRest⟩ := List.map_eq_append_iff.mp hPieces
  obtain ⟨e, post', rfl, rfl, rfl⟩ := List.map_eq_cons_iff.mp hRest
  obtain ⟨front, pre₁, post₁, back, rfl, rfl⟩ := exists_word hFlat
  refine ⟨front.length, span ParamInfo.len pre₁, e, ⟨pre₁, post₁, by simp, rfl⟩, hField, hLo, hHi, ?_⟩
  rw [span_piece, span_append, (h.filled.span_front).1] at hPos
  exact hPos

/-- The place of a member: the number of bits below it. -/
def place (ceilLog : Nat → Nat) (members : List Member) (m : Member) : Nat :=
  span (Member.bitWidth ceilLog) (members.takeWhile fun m' => decide (m'.name ≠ m.name))

theorem place_eq (hNames : (members.map Member.name).Nodup) {lower upper : List Member}
    (h : members = lower ++ m :: upper) : place ceilLog members m = span (Member.bitWidth ceilLog) lower := by
  subst h
  rw [List.map_append, List.map_cons, List.nodup_append] at hNames
  have hLower : ∀ m' ∈ lower, decide (m'.name ≠ m.name) = true := by
    intro m' hm'
    simpa using hNames.2.2 m'.name (List.mem_map_of_mem hm') m.name List.mem_cons_self
  rw [place, List.takeWhile_append_of_pos hLower, List.takeWhile_cons_of_neg (by simp),
    List.append_nil]

theorem place_add_bitWidth_le (hNames : (members.map Member.name).Nodup) (hm : m ∈ members) :
    place ceilLog members m + m.bitWidth ceilLog ≤ span (Member.bitWidth ceilLog) members := by
  obtain ⟨lower, upper, hMembers⟩ := List.append_of_mem hm
  rw [Connectal.place_eq hNames hMembers, hMembers, span_append, span_cons]
  omega

variable (h : Cut ceilLog members words)

include h

theorem Cut.place_eq (hNames : (members.map Member.name).Nodup) {k off : Nat} (he : LiesAt words k off e) :
    e.toMember ∈ members ∧ e.shifted ≤ e.width ∧ e.width ≤ e.bitWidth ceilLog ∧
      32 * k + off = place ceilLog members e.toMember + e.shifted ∧ off + e.len ≤ 32 := by
  obtain ⟨lower, upper, hMembers, hLo, hHi, hPos, hFits⟩ := h.located he
  refine ⟨by simp [hMembers], hLo, hHi, ?_, hFits⟩
  rw [Connectal.place_eq hNames hMembers]
  exact hPos

theorem Cut.exists_place (hNames : (members.map Member.name).Nodup)
    (hm : m ∈ members) {q : Nat} (hq : q < m.bitWidth ceilLog) :
    ∃ k off e, LiesAt words k off e ∧ e.toMember = m ∧ e.shifted ≤ q ∧ q < e.width ∧
      32 * k + off = place ceilLog members m + e.shifted := by
  obtain ⟨lower, upper, hMembers⟩ := List.append_of_mem hm
  rw [Connectal.place_eq hNames hMembers]
  exact h.exists_liesAt hMembers hq

theorem Cut.shifted_lt (hw : w ∈ words) (he : e ∈ w) (hPos : 0 < e.bitWidth ceilLog) : e.shifted < e.width :=
  h.covers.lo_lt_hi e.piece (List.mem_map_of_mem (List.mem_flatten.mpr ⟨w, hw, he⟩)) hPos

theorem Cut.nodup_names (hNames : (members.map Member.name).Nodup)
    (hPos : ∀ m ∈ members, 0 < m.bitWidth ceilLog) {k : Nat}
    (hw : words[k]? = some w) : (w.map fun e => e.name).Nodup := by
  have hMem : w ∈ words := List.mem_of_getElem? hw
  rw [List.Nodup, List.pairwise_map]
  apply pairwise_of_split
  rintro pre e mid e' post rfl hName
  have he : LiesAt words k (span ParamInfo.len pre) e := ⟨pre, _, hw, rfl⟩
  have he' : LiesAt words k (span ParamInfo.len (pre ++ e :: mid)) e' :=
    ⟨pre ++ e :: mid, post, by simpa using hw, rfl⟩
  obtain ⟨hIn, hLo, hHi, hPos₁, -⟩ := h.place_eq hNames he
  obtain ⟨-, -, -, hPos₂, -⟩ := h.place_eq hNames he'
  have hLess := h.shifted_lt hMem (e := e) (by simp) (hPos _ hIn)
  have hPlace : place ceilLog members e'.toMember = place ceilLog members e.toMember := by
    simp only [place, hName]
  rw [hPlace, span_append, span_cons, ParamInfo.len] at hPos₂
  -- the upper piece does not begin its member, so it begins the word
  have hNil := (h.wellFilled _ hMem (pre ++ e :: mid) e' post (by simp)).starts (by omega)
  simp at hNil

/-- The number of words of a list of members: one that has no width starts a word of
its own at the end of a full word. -/
def wordCount (ceilLog : Nat → Nat) (members : List Member) : Nat :=
  match members.getLast? with
  | none => 0
  | some top =>
    if top.bitWidth ceilLog = 0 then span (Member.bitWidth ceilLog) members / 32 + 1
    else (span (Member.bitWidth ceilLog) members + 31) / 32

theorem Cut.length_eq :
    words.length = wordCount ceilLog members := by
  rcases List.eq_nil_or_concat words with rfl | ⟨front, w, rfl⟩
  · cases hMembers : members with
    | nil => rfl
    | cons m rest =>
      have hCovers := h.covers
      rw [hMembers] at hCovers
      cases hCovers
  · rw [List.concat_eq_append] at h ⊢
    have hw : w ∈ front ++ [w] := by simp
    rcases List.eq_nil_or_concat w with rfl | ⟨pre, e, rfl⟩
    · exact absurd rfl (h.nonempty _ hw)
    · rw [List.concat_eq_append] at h hw ⊢
      obtain ⟨hFront, hFits⟩ := h.filled.span_front
      have hRoom := (h.wellFilled _ hw pre e [] rfl).room
      have hPieces : (front ++ [pre ++ [e]]).flatten.map ParamInfo.piece =
          (front.flatten ++ pre).map ParamInfo.piece ++ [e.piece] := by simp
      obtain ⟨hHi, lower, hMembers⟩ := h.covers.last_piece hPieces
      have hTotal := h.covers.span_eq
      rw [span_piece] at hTotal
      simp only [List.flatten_append, List.flatten_singleton, span_append, span_cons, span_nil,
        hFront, Nat.add_zero] at hTotal hFits
      have hLength : (front ++ [pre ++ [e]]).length = front.length + 1 := by simp
      have hLo := h.covers.lo_lt_hi e.piece (by rw [hPieces]; simp)
      have hTop : e.width = e.bitWidth ceilLog := hHi
      rw [hLength, wordCount, hMembers, List.getLast?_concat]
      simp only [← hMembers, ← hTotal]
      split
      · next hZero =>
        have : e.bitWidth ceilLog = 0 := hZero
        have : e.len = 0 := by simp only [ParamInfo.len]; omega
        omega
      · next hPos =>
        have hLess : e.shifted < e.width := hLo (Nat.pos_of_ne_zero hPos)
        have : 0 < e.len := by simp only [ParamInfo.len]; omega
        omega

end Connectal
