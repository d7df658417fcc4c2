import Connectal.Strstr.Borders

/-! The search of `mp.h`. The procedures follow a textbook whose strings start at 1;
`MP` moves the strings to 0, `compute_MP_next` does not, so that its table is the table
of the needle without its first character. -/
namespace Connectal.Strstr

open Layout

/-- The variables of `MP`, the positions it has printed and the counter of its caller. -/
structure MPState where
  i : Nat
  j : Nat
  printed : List Nat
  matchCnt : Nat
  deriving DecidableEq, Repr

/-- One turn of the outer loop of `MP`. -/
def mpTurn (fuel : Nat) (x t : Nat → BitVec 8) (next : Nat → Nat) (m : Nat) (s : MPState) :
    Option MPState := do
  let i ← whileNext (fun i => i = m + 1 || (0 < i && x (i - 1) ≠ t (s.j - 1))) next fuel s.i
  let i := i + 1
  let j := s.j + 1
  if i = m + 1 then
    return { i := 1, j, printed := s.printed ++ [j - i], matchCnt := s.matchCnt + 1 }
  else
    return { s with i, j }

/-- The outer loop of `MP`. -/
def mpLoop (fuel : Nat) (x t : Nat → BitVec 8) (next : Nat → Nat) (m n : Nat) :
    Nat → MPState → Option MPState
  | 0, _ => none
  | turns + 1, s =>
    if s.j ≤ n then (mpTurn fuel x t next m s).bind (mpLoop fuel x t next m n turns) else some s

/-- `MP`: the positions it prints and what it leaves in `*match_cnt`. -/
def MP (fuel : Nat) (x t : Nat → BitVec 8) (next : Nat → Nat) (m n matchCnt : Nat) :
    Option (List Nat × Nat) :=
  (mpLoop fuel x t next m n fuel ⟨1, 1, [], matchCnt⟩).map fun s => (s.printed, s.matchCnt)

/-- The two calls of `teststrstr.cpp`. -/
def search (fuel : Nat) (x t : Nat → BitVec 8) (next : Nat → Nat) (m n matchCnt : Nat) :
    Option (List Nat × Nat) := do
  let next ← computeMPNext fuel x next m
  MP fuel x t next m n matchCnt

/-- What a caller expects: the occurrences from left to right, each one looked for after
the end of the one before. -/
def occurrences (x t : Nat → BitVec 8) (m n : Nat) : List Nat :=
  greedyFrom (OccursAt x m t n) m n 0

/-- The loops end and print the expected positions. -/
def Finds (x t : Nat → BitVec 8) (next : Nat → Nat) (m n matchCnt : Nat) : Prop :=
  ∃ turns, ∀ fuel ≥ turns, search fuel x t next m n matchCnt =
    some (occurrences x t m n, matchCnt + (occurrences x t m n).length)

/-- What the table of `compute_MP_next` has: entries go down, and an entry above 1 leads
to a character that is the same again. -/
structure Table (x : Nat → BitVec 8) (m : Nat) (next : Nat → Nat) : Prop where
  one : next 1 = 0
  pos : ∀ i, 1 < i → i ≤ m → 0 < next i
  lt : ∀ i, 0 < i → i ≤ m → next i < i
  same : ∀ i, 0 < i → i ≤ m → 1 < next i → x (next i - 1) = x (i - 1)

variable {i : Nat}

section Table

variable {x : Nat → BitVec 8} {m : Nat} {next : Nat → Nat} {fuel : Nat}

/-- `compute_MP_next` ends with such a table: an entry is one more than the length of a border
of the word that starts at 1. -/
theorem exists_computeMPNext (x : Nat → BitVec 8) (next : Nat → Nat) (hFuel : m < fuel) :
    ∃ next', computeMPNext fuel x next m = some next' ∧ Table x (m + 1) next' := by
  obtain ⟨table, hTable, h⟩ := exists_checkedMPNext (fun a => x a.toNat) m (fun a => next a.toNat) hFuel
  obtain ⟨next', hRun, hSame⟩ := computeMPNext_of_checked hTable
  have hEntry : ∀ c ≤ m, next' (c + 1) = failure (fun a => x (a + 1)) c := fun c hc => by
    have hVal := h.entry c hc
    rw [Int.sub_zero, Int.sub_zero, show (c : Int) + 1 = (c + 1 : Nat) from rfl, hSame] at hVal
    exact Int.ofNat_inj.mp hVal
  refine ⟨next', hRun, ?_, fun i hi hm => ?_, fun i hi hm => ?_, fun i hi hm hBig => ?_⟩
  · exact (hEntry 0 (Nat.zero_le m)).trans (Nat.le_zero.mp (failure_le _ 0))
  all_goals
    obtain ⟨c, rfl⟩ := Nat.exists_eq_add_of_le' (show 1 ≤ i by omega)
    rw [hEntry c (by omega)] at *
  · exact (border_zero (by omega)).lt_failure
  · exact Nat.lt_succ_of_le (failure_le _ c)
  · obtain ⟨hLt, hAgrees⟩ := border_failure (Nat.lt_of_succ_lt hBig)
    generalize failure (fun a => x (a + 1)) c = f at hBig hLt hAgrees ⊢
    have hLast : x (f - 2 + 1) = x (c - (f - 1) + (f - 2) + 1) := hAgrees (f - 2) (by omega)
    rwa [show f - 2 + 1 = f - 1 by omega, show c - (f - 1) + (f - 2) + 1 = c by omega] at hLast

/-- Where the inner loop of `MP` goes from position `i` when the text has `c`. -/
def restart (x : Nat → BitVec 8) (c : BitVec 8) (i : Nat) : Nat :=
  if x (i - 1) = c then i else if x 0 = c then 1 else 0

/-- With this table a mismatch always goes back to the first character: entries above 1
only lead to the character that just failed. -/
theorem Table.whileNext_eq (h : Table x (m + 1) next) (c : BitVec 8) (hi : 0 < i) (hm : i ≤ m)
    (hFuel : i < fuel) :
    whileNext (fun i => i = m + 1 || (0 < i && x (i - 1) ≠ c)) next fuel i = some (restart x c i) := by
  induction fuel generalizing i with
  | zero => exact absurd hFuel (Nat.not_lt_zero i)
  | succ fuel ih =>
    rw [whileNext]
    by_cases hMatch : x (i - 1) = c
    · simp [hMatch, restart, show i ≠ m + 1 by omega]
    · have hLt := h.lt i hi (by omega)
      rw [if_pos (by simp [hMatch, hi])]
      rcases Nat.lt_trichotomy (next i) 1 with hZero | hOne | hBig
      · -- the table goes below 1 only from 1
        have hFirst : i = 1 := by
          by_contra hNot
          have := h.pos i (by omega) (by omega)
          omega
        subst hFirst
        have hNext : next 1 = 0 := by omega
        cases fuel with
        | zero => omega
        | succ fuel => simp_all [whileNext, restart]
      · rw [ih (by omega) (by omega) (by omega)]
        simp [restart, hMatch, hOne]
      · rw [ih (by omega) (by omega) (by omega)]
        simp [restart, hMatch, h.same i hi (by omega) hBig]

end Table

section Run

variable {x t : Nat → BitVec 8} {m n fuel p k p' k' : Nat} {next : Nat → Nat} {out : List Nat}

/-- The first `k` characters are matched from position `p` on. -/
def scanning (p k : Nat) (printed : List Nat) (matchCnt : Nat) : MPState :=
  ⟨k + 1, p + k + 1, printed, matchCnt⟩

/-- What a turn of `MP` does, with what it prints. After a mismatch all `k` characters are
given up. -/
inductive Turn (x t : Nat → BitVec 8) (m p k : Nat) : Nat → Nat → List Nat → Prop where
  | hit : k + 1 = m → x k = t (p + k) → Turn x t m p k (p + m) 0 [p]
  | grow : k + 1 < m → x k = t (p + k) → Turn x t m p k p (k + 1) []
  | again : 0 < k → x k ≠ t (p + k) → x 0 = t (p + k) → Turn x t m p k (p + k) 1 []
  | skip : x k ≠ t (p + k) → x 0 ≠ t (p + k) → Turn x t m p k (p + k + 1) 0 []

/-- With the table of `compute_MP_next` there are no other turns. -/
theorem Table.exists_turn (h : Table x (m + 1) next) (t : Nat → BitVec 8) (p : Nat) (hk : k < m)
    (hFuel : m < fuel) (printed : List Nat) (matchCnt : Nat) :
    ∃ p' k' out, Turn x t m p k p' k' out ∧ p' + k' = p + k + 1 ∧ k' < m ∧
      mpTurn fuel x t next m (scanning p k printed matchCnt) =
        some (scanning p' k' (printed ++ out) (matchCnt + out.length)) := by
  have hLoop := h.whileNext_eq (t (p + k)) (i := k + 1) k.succ_pos hk (Nat.lt_of_le_of_lt hk hFuel)
  simp only [mpTurn, scanning, Nat.add_sub_cancel, hLoop, Option.bind_eq_bind, Option.bind_some]
  by_cases hMatch : x k = t (p + k)
  · rw [restart, Nat.add_sub_cancel, if_pos hMatch]
    by_cases hFull : k + 1 = m
    · refine ⟨p + m, 0, [p], .hit hFull hMatch, by omega, by omega, ?_⟩
      rw [if_pos (by omega)]
      rw [show p + k + 1 + 1 - (k + 1 + 1) = p by omega, show p + k + 1 + 1 = p + m + 0 + 1 by omega]
      rfl
    · refine ⟨p, k + 1, [], .grow (by omega) hMatch, by omega, by omega, ?_⟩
      rw [if_neg (by omega)]
      simp [Nat.add_assoc]
  · rw [restart, Nat.add_sub_cancel, if_neg hMatch]
    by_cases hFirst : x 0 = t (p + k)
    · have hPos : 0 < k := Nat.pos_of_ne_zero fun hZero => hMatch (hZero ▸ hFirst)
      refine ⟨p + k, 1, [], .again hPos hMatch hFirst, by omega, by omega, ?_⟩
      rw [if_pos hFirst, if_neg (by omega)]
      simp
    · refine ⟨p + k + 1, 0, [], .skip hMatch hFirst, by omega, by omega, ?_⟩
      rw [if_neg hFirst, if_neg (by omega)]
      simp

theorem Turn.agrees (h : Agrees x t p k) (turn : Turn x t m p k p' k' out) : Agrees x t p' k' := by
  cases turn with
  | hit | skip => exact agrees_zero
  | grow hk hMatch => exact h.succ hMatch
  | again hPos hMiss hFirst => exact agrees_zero.succ hFirst

/-- No border of a matched part of the needle goes on differently from the needle, so that
nothing is lost when a mismatch gives the whole part up. -/
def RestartSafe (x : Nat → BitVec 8) (m : Nat) : Prop :=
  ∀ k < m, ∀ b < k, 0 < b → Border x k b → x b = x k

instance (x : Nat → BitVec 8) (m : Nat) : Decidable (RestartSafe x m) :=
  inferInstanceAs (Decidable (∀ k < m, ∀ b < k, 0 < b → Border x k b → x b = x k))

/-- The word does not occur within a part that is given up. -/
theorem RestartSafe.not_occursAt (hSafe : RestartSafe x m) (h : Agrees x t p k) (hk : k < m)
    (hMiss : x k ≠ t (p + k)) {q : Nat} (hq : p ≤ q) (hqk : q < p + k) : ¬ OccursAt x m t n q := by
  rintro ⟨-, hOccurs⟩
  obtain ⟨d, rfl⟩ := Nat.exists_eq_add_of_le hq
  have hHere : p + d + (k - d) = p + k := by omega
  have hChar := hOccurs (k - d) (by omega)
  rw [hHere] at hChar
  rcases Nat.eq_zero_or_pos d with rfl | hd
  · exact hMiss hChar
  · have hBorder := h.border hOccurs hd (by omega) (by omega)
    exact hMiss ((hSafe k hk (k - d) (by omega) (by omega) hBorder).symm.trans hChar)

/-- What a turn prints is what the greedy search finds between the two positions. -/
theorem Turn.greedy (hSafe : RestartSafe x m) (h : Agrees x t p k) (hk : k < m)
    (turn : Turn x t m p k p' k' out) (hEnd : p + k < n) :
    greedyFrom (OccursAt x m t n) m n p = out ++ greedyFrom (OccursAt x m t n) m n p' := by
  cases turn with
  | hit hFull hMatch =>
    have hOccurs : OccursAt x m t n p := ⟨by omega, hFull ▸ h.succ hMatch⟩
    rw [greedyFrom_hit (by omega) hOccurs (by omega), List.singleton_append]
  | grow hk hMatch => rfl
  | again hPos hMiss hFirst =>
    rw [List.nil_append]
    exact greedyFrom_skip fun q hq hqk => hSafe.not_occursAt h hk hMiss hq hqk
  | skip hMiss hFirst =>
    rw [List.nil_append, Nat.add_assoc]
    refine greedyFrom_skip fun q hq hqk => ?_
    rcases Nat.lt_succ_iff_lt_or_eq.mp hqk with hqk | rfl
    · exact hSafe.not_occursAt h hk hMiss hq hqk
    · exact fun hOccurs => hFirst (hOccurs.2 0 (by omega))

section

-- `Rest p k later` says that `later` is what is printed from a state on; it has to hold
-- at the end and before a turn if it holds after it
variable (Rest : Nat → Nat → List Nat → Prop) (hLast : ∀ p k, n ≤ p + k → k < m → Rest p k [])
  (hTurn : ∀ {p k p' k' out later}, k < m → Agrees x t p k → p + k < n → Turn x t m p k p' k' out →
    Rest p' k' later → Rest p k (out ++ later))

include hLast hTurn

/-- The whole loop. -/
theorem Table.exists_mpLoop (h : Table x (m + 1) next) (hFuel : m < fuel) {turns : Nat} (hTurns : n < turns + (p + k)) (hEnd : p + k ≤ n) (hk : k < m)
    (hAgrees : Agrees x t p k) (printed : List Nat) (matchCnt : Nat) :
    ∃ s later, mpLoop fuel x t next m n turns (scanning p k printed matchCnt) = some s ∧
      s.printed = printed ++ later ∧ s.matchCnt = matchCnt + later.length ∧ Rest p k later := by
  induction turns generalizing p k printed matchCnt with
  | zero => omega
  | succ turns ih =>
    rw [mpLoop]
    by_cases hMore : p + k < n
    · obtain ⟨p', k', out, turn, hNext, hk', hRun⟩ :=
        h.exists_turn t p hk hFuel printed matchCnt
      obtain ⟨s, later, hLoop, hPrinted, hCnt, hRest⟩ := ih (by omega) (by omega) hk'
        (turn.agrees hAgrees) (printed ++ out) (matchCnt + out.length)
      refine ⟨s, out ++ later, ?_, ?_, ?_, hTurn hk hAgrees hMore turn hRest⟩
      · rw [if_pos (show (scanning p k printed matchCnt).j ≤ n from hMore), hRun, Option.bind_some, hLoop]
      · rw [hPrinted, List.append_assoc]
      · rw [hCnt, List.length_append, Nat.add_assoc]
    · refine ⟨_, [], if_neg (show ¬ p + k + 1 ≤ n from hMore), by simp [scanning], rfl, ?_⟩
      exact hLast p k (by omega) hk

/-- The two calls end, and print what `Rest` says of the start. -/
theorem exists_search (hm : 0 < m) (hFuel : m + n < fuel) (next : Nat → Nat) (matchCnt : Nat) :
    ∃ later, search fuel x t next m n matchCnt = some (later, matchCnt + later.length) ∧ Rest 0 0 later := by
  obtain ⟨next', hNext, hTable⟩ := exists_computeMPNext x next (show m < fuel by omega)
  obtain ⟨s, later, hLoop, hPrinted, hCnt, hRest⟩ := hTable.exists_mpLoop Rest hLast hTurn
    (show m < fuel by omega) (show n < fuel + (0 + 0) by omega) (Nat.zero_le n) hm agrees_zero [] matchCnt
  refine ⟨later, ?_, hRest⟩
  simp only [search, hNext, Option.bind_eq_bind, Option.bind_some, MP]
  rw [show (⟨1, 1, [], matchCnt⟩ : MPState) = scanning 0 0 [] matchCnt from rfl, hLoop]
  simp [hPrinted, hCnt]

end

/-- A text in which a needle that is not safe is missed: the part that the mismatch gives
up, and then the needle after its border. -/
def missedText (x : Nat → BitVec 8) (k b : Nat) (a : Nat) : BitVec 8 :=
  if a < k then x a else x (a - k + b)

theorem missedText_occursAt {b : Nat} (hb : Border x k b) (m : Nat) :
    OccursAt x m (missedText x k b) (k - b + m) (k - b) := by
  have hLt := hb.1
  refine ⟨Nat.le_refl _, fun a ha => ?_⟩
  unfold missedText
  split
  · next hIn => exact hb.2 a (by omega)
  · next hOut =>
    congr 1
    omega

/-- Nothing is printed for that text. -/
theorem Turn.missed {b : Nat} (hb : Border x k b) (hk : k < m) (hDiffer : x b ≠ x k)
    {p p' i' : Nat} {out later : List Nat} (hEnd : p + i < k - b + m) (hPos : 0 < b)
    (turn : Turn x (missedText x k b) m p i p' i' out)
    (hRest : p' = 0 ∧ i' ≤ k ∨ k ≤ p' → later = []) (hHere : p = 0 ∧ i ≤ k ∨ k ≤ p) : out ++ later = [] := by
  have hLt := hb.1
  have hMatched : ∀ a < k, missedText x k b a = x a := fun a ha => if_pos ha
  have hNew : missedText x k b k = x b := by simp [missedText]
  rcases hHere with ⟨rfl, hik⟩ | hkp
  · rcases Nat.lt_or_ge i k with hik | hki
    · have hSame : x i = missedText x k b (0 + i) := by rw [Nat.zero_add, hMatched i hik]
      cases turn with
      | hit hFull hMatch => omega
      | grow hLess hMatch => exact hRest (.inl ⟨rfl, hik⟩)
      | again _ hMiss | skip hMiss => exact absurd hSame hMiss
    · obtain rfl : i = k := by omega
      have hMiss : x i ≠ missedText x i b (0 + i) := by rw [Nat.zero_add, hNew]; exact hDiffer.symm
      cases turn with
      | hit _ hMatch | grow _ hMatch => exact absurd hMatch hMiss
      | again | skip => exact hRest (.inr (by omega))
  · cases turn with
    | hit hFull hMatch => omega
    | grow _ _ => exact hRest (.inr hkp)
    | again _ _ _ => exact hRest (.inr (by omega))
    | skip _ _ => exact hRest (.inr (by omega))

/-- A needle that is not safe is missed. -/
theorem search_misses {b : Nat} (hb : Border x k b) (hk : k < m) (hPos : 0 < b) (hDiffer : x b ≠ x k)
    (hFuel : m + (k - b + m) < fuel) (next : Nat → Nat) (matchCnt : Nat) :
    search fuel x (missedText x k b) next m (k - b + m) matchCnt = some ([], matchCnt) := by
  obtain ⟨later, hRun, hNone⟩ := exists_search
    (fun p i later => p = 0 ∧ i ≤ k ∨ k ≤ p → later = []) (fun _ _ _ _ _ => rfl)
    (fun _ _ hEnd turn hRest => turn.missed hb hk hDiffer hEnd hPos hRest) (by omega) hFuel next matchCnt
  rw [hRun, hNone (.inl ⟨rfl, Nat.zero_le k⟩)]
  rfl

/-- Occurrences from position `p` on, none of which begins within another. -/
def Sound (x t : Nat → BitVec 8) (m n p : Nat) (later : List Nat) : Prop :=
  later.Pairwise (fun a b => a + m ≤ b) ∧ ∀ q ∈ later, p ≤ q ∧ OccursAt x m t n q

theorem Turn.sound {later : List Nat} (h : Agrees x t p k) (hEnd : p + k < n)
    (turn : Turn x t m p k p' k' out) (hRest : Sound x t m n p' later) : Sound x t m n p (out ++ later) := by
  obtain ⟨hApart, hOccur⟩ := hRest
  cases turn with
  | hit hFull hMatch =>
    have hHere : OccursAt x m t n p := ⟨by omega, hFull ▸ h.succ hMatch⟩
    refine ⟨List.pairwise_cons.mpr ⟨fun q hq => (hOccur q hq).1, hApart⟩,
      List.forall_mem_cons.mpr ⟨⟨le_rfl, hHere⟩, fun q hq => (hOccur q hq).imp_left (by omega)⟩⟩
  | grow | again | skip => exact ⟨hApart, fun q hq => (hOccur q hq).imp_left (by omega)⟩

end Run

/-- Whatever the needle, the search ends, and it prints and counts nothing but occurrences, in
increasing order and without overlap. -/
theorem search_sound (x t : Nat → BitVec 8) {m n fuel : Nat} (hm : 0 < m) (hFuel : m + n < fuel)
    (next : Nat → Nat) (matchCnt : Nat) :
    ∃ later, search fuel x t next m n matchCnt = some (later, matchCnt + later.length) ∧ Sound x t m n 0 later :=
  exists_search (fun p _ => Sound x t m n p) (fun _ _ _ _ => ⟨.nil, by simp⟩)
    (fun _ hAgrees hEnd turn => turn.sound hAgrees hEnd) hm hFuel next matchCnt

/-- For every nonempty needle and whatever was in the memory of the table, the search ends
with the right positions and count for every text exactly if the needle is safe. -/
theorem finds_iff_restartSafe (x : Nat → BitVec 8) (m : Nat) (hm : 0 < m) :
    (∀ t next n matchCnt, Finds x t next m n matchCnt) ↔ RestartSafe x m := by
  constructor
  · intro hFinds k hk b hbk hPos hb
    by_contra hDiffer
    obtain ⟨turns, hSearch⟩ := hFinds (missedText x k b) id (k - b + m) 0
    have hRun := hSearch (turns + (m + (k - b + m)) + 1) (by omega)
    rw [search_misses hb hk hPos hDiffer (by omega), Option.some.injEq, Prod.mk.injEq] at hRun
    exact greedyFrom_ne_nil (Nat.zero_le _) (by omega) (missedText_occursAt hb m) hm hRun.1.symm
  · intro hSafe t next n matchCnt
    refine ⟨m + n + 1, fun fuel hFuel => ?_⟩
    obtain ⟨later, hRun, hRest⟩ := exists_search (x := x) (t := t) (n := n)
      (fun p _ later => later = greedyFrom (OccursAt x m t n) m n p)
      (fun p k hEnd hk => (greedyFrom_end fun q hq _ hOccurs => by have := hOccurs.1; omega).symm)
      (fun hk hAgrees hEnd turn hRest => by rw [hRest, ← turn.greedy hSafe hAgrees hk hEnd])
      hm (show m + n < fuel by omega) next matchCnt
    rw [hRun, hRest]
    rfl

/-- The needle `ababab` of `teststrstr.cpp`. -/
def ababab (a : Nat) : BitVec 8 := if a % 2 = 0 then 0x61 else 0x62

theorem ababab_found :
    RestartSafe ababab 6 ∧ ∀ t next n matchCnt, Finds ababab t next 6 n matchCnt :=
  ⟨by decide, (finds_iff_restartSafe ababab 6 (by decide)).mpr (by decide)⟩

/-- The needle `aab`. -/
def aab (a : Nat) : BitVec 8 := if a < 2 then 0x61 else 0x62

theorem search_sound_aab : ∃ later, search 9 aab aab id 3 3 0 = some (later, 0 + later.length) ∧
    Sound aab aab 3 3 0 later :=
  search_sound aab aab (by decide) (by decide) id 0

/-- The needle `aab` is not found in `aaab`, whatever the number of turns allowed. -/
theorem aab_missed :
    (List.range 4).map (missedText aab 2 1) = [0x61, 0x61, 0x61, 0x62] ∧
      occurrences aab (missedText aab 2 1) 3 4 = [1] ∧
      (∀ fuel > 7, search fuel aab (missedText aab 2 1) id 3 4 0 = some ([], 0)) ∧
      ¬ Finds aab (missedText aab 2 1) id 3 4 0 := by
  have hFound : occurrences aab (missedText aab 2 1) 3 4 = [1] := by decide
  have hMissed : ∀ fuel > 7, search fuel aab (missedText aab 2 1) id 3 4 0 = some ([], 0) :=
    fun fuel hFuel => search_misses (k := 2) (b := 1) (by decide) (by decide) (by decide) (by decide)
      hFuel id 0
  refine ⟨by decide, hFound, hMissed, ?_⟩
  rintro ⟨turns, hFinds⟩
  have h := hFinds (turns + 8) (by omega)
  rw [hMissed _ (by omega), hFound] at h
  exact absurd h (by simp)

end Connectal.Strstr
