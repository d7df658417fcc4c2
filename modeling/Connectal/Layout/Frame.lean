import Mathlib.Data.List.Flatten
import Mathlib.Data.List.Infix

/-! Packets in a stream of beats. A packet is marked by its first and its last
beat; a stream is cut behind every last beat. -/
namespace Layout

section Lawful

variable {β : Type*} {ok weak : List β → β → Prop} {stream : List β} {b : β}

/-- Every beat of the stream was admitted by the beats before it. -/
def Lawful (ok : List β → β → Prop) (stream : List β) : Prop :=
  ∀ before b, before ++ [b] <+: stream → ok before b

theorem Lawful.nil : Lawful ok [] := by
  intro before b h
  have hNil := List.prefix_nil.mp h
  simp at hNil

theorem Lawful.mono {stream' : List β} (h : Lawful ok stream) (hPrefix : stream' <+: stream) :
    Lawful ok stream' := fun before b hBefore => h before b (hBefore.trans hPrefix)

theorem Lawful.last (h : Lawful ok (stream ++ [b])) : ok stream b := h stream b (List.prefix_refl _)

theorem Lawful.concat (h : Lawful ok stream) (hb : ok stream b) : Lawful ok (stream ++ [b]) := by
  intro before c hBefore
  rcases List.prefix_concat_iff.mp hBefore with hEq | hPrefix
  · obtain ⟨rfl, hEnd⟩ := List.append_inj' hEq rfl
    cases hEnd
    exact hb
  · exact h before c hPrefix

/-- What holds of the empty stream and is kept by every admitted beat. -/
theorem Lawful.induction {motive : List β → Prop} (h : Lawful ok stream) (nil : motive [])
    (concat : ∀ before b, Lawful ok before → ok before b → motive before → motive (before ++ [b])) :
    motive stream := by
  induction stream using List.reverseRecOn with
  | nil => exact nil
  | append_singleton before b ih =>
    have hBefore := h.mono (List.prefix_append before [b])
    exact concat before b hBefore h.last (ih hBefore)

end Lawful

/-- The marks of a beat. -/
structure Frame (β : Type*) where
  sof : β → Bool
  eof : β → Bool

namespace Frame

variable {β : Type*} (F : Frame β)

/-- The beats of a packet behind its first beat. -/
def Rest : List β → Prop
  | [] => False
  | b :: rest => F.sof b = false ∧ if F.eof b then rest = [] else Rest rest

/-- The first beat, and only that one, starts the packet. The last beat, and only
that one, ends it. -/
def Packet : List β → Prop
  | [] => False
  | b :: rest => F.sof b = true ∧ if F.eof b then rest = [] else F.Rest rest

/-- The first beats of a packet that has not ended. -/
def Opened : List β → Prop
  | [] => True
  | b :: rest => F.sof b = true ∧ F.eof b = false ∧ ∀ c ∈ rest, F.sof c = false ∧ F.eof c = false

/-- One more beat behind whole packets and the beats of an open one. -/
def push (c : List (List β) × List β) (b : β) : List (List β) × List β :=
  if F.eof b then (c.1 ++ [c.2 ++ [b]], []) else (c.1, c.2 ++ [b])

/-- The packets of a stream, and the beats of the packet that has not ended. -/
def cut (stream : List β) : List (List β) × List β := stream.foldl F.push ([], [])

/-- The next beat starts a packet exactly if no packet is open. -/
def Admits (stream : List β) (b : β) : Prop := F.sof b = (F.cut stream).2.isEmpty

instance (stream : List β) (b : β) : Decidable (F.Admits stream b) :=
  inferInstanceAs (Decidable (_ = _))

/-- A stream of packets, the last of which may be incomplete. -/
abbrev Framed (stream : List β) : Prop := Lawful F.Admits stream

variable {F} {stream : List β} {b : β}

@[simp] theorem cut_nil : F.cut [] = ([], []) := rfl

theorem cut_concat (stream : List β) (b : β) : F.cut (stream ++ [b]) = F.push (F.cut stream) b := by
  rw [cut, List.foldl_append]
  rfl

theorem cut_concat_eof (h : F.eof b = true) :
    F.cut (stream ++ [b]) = ((F.cut stream).1 ++ [(F.cut stream).2 ++ [b]], []) := by
  rw [cut_concat, push, if_pos h]

theorem cut_concat_middle (h : F.eof b = false) :
    F.cut (stream ++ [b]) = ((F.cut stream).1, (F.cut stream).2 ++ [b]) := by
  rw [cut_concat, push, h]
  rfl

theorem cut_concat_open (stream : List β) (b : β) :
    (F.cut (stream ++ [b])).2 = if F.eof b then [] else (F.cut stream).2 ++ [b] := by
  rw [cut_concat, push]
  split <;> rfl

theorem flatten_cut (stream : List β) : (F.cut stream).1.flatten ++ (F.cut stream).2 = stream := by
  induction stream using List.reverseRecOn with
  | nil => rfl
  | append_singleton stream b ih =>
    rw [cut_concat, push]
    split
    · rw [List.flatten_append, List.flatten_singleton, List.append_nil, ← List.append_assoc, ih]
    · rw [← List.append_assoc, ih]

theorem cut_mono {stream' : List β} (h : stream <+: stream') :
    (F.cut stream).1 <+: (F.cut stream').1 := by
  obtain ⟨more, rfl⟩ := h
  induction more using List.reverseRecOn with
  | nil => rw [List.append_nil]
  | append_singleton more b ih =>
    rw [← List.append_assoc, cut_concat, push]
    split
    · exact ih.trans (List.prefix_append _ _)
    · exact ih

theorem Rest.concat {l : List β} (hl : ∀ c ∈ l, F.sof c = false ∧ F.eof c = false)
    (hSof : F.sof b = false) (hEof : F.eof b = true) : F.Rest (l ++ [b]) := by
  induction l with
  | nil =>
    refine ⟨hSof, ?_⟩
    rw [if_pos hEof]
  | cons c l ih =>
    obtain ⟨hc, hl⟩ := List.forall_mem_cons.mp hl
    refine ⟨hc.1, ?_⟩
    rw [hc.2]
    exact ih hl

theorem Opened.close {l : List β} (hl : F.Opened l) (hSof : F.sof b = l.isEmpty)
    (hEof : F.eof b = true) : F.Packet (l ++ [b]) := by
  cases l with
  | nil =>
    refine ⟨hSof, ?_⟩
    rw [if_pos hEof]
  | cons c l =>
    refine ⟨hl.1, ?_⟩
    rw [hl.2.1]
    exact Rest.concat hl.2.2 hSof hEof

theorem Opened.concat {l : List β} (hl : F.Opened l) (hSof : F.sof b = l.isEmpty)
    (hEof : F.eof b = false) : F.Opened (l ++ [b]) := by
  cases l with
  | nil => exact ⟨hSof, hEof, fun c hc => by cases hc⟩
  | cons c l =>
    refine ⟨hl.1, hl.2.1, List.forall_mem_append.mpr ⟨hl.2.2, ?_⟩⟩
    rw [List.forall_mem_singleton]
    exact ⟨hSof, hEof⟩

end Frame
end Layout
