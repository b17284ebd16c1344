/-
Frames in a stream of symbols: a header of a fixed length, then as many symbols as the header
announces, and so on until a header announces too much.

`Format.parse` takes a stream apart at once.  What it has left over at the end (`Tail.word`) is all
that has to be kept of the stream: together with more symbols it is taken apart as the whole
stream is.

  * `induct`: induction on the frames at the front of a stream;
  * `parse_append`: a stream that is continued, from what was left over;
  * `parse_append_of_oversized`: after a header that announces too much there are no more frames.
-/
import Mathlib.Data.List.Basic

namespace Framing

variable {β : Type*}

/-- The length of a header, the number of symbols that one announces, and the most that one may
announce. -/
structure Format (β : Type*) where
  header : ℕ
  size : List β → ℕ
  limit : ℕ
  header_pos : 0 < header

/-- A header and what it announces. -/
structure Frame (β : Type*) where
  head : List β
  body : List β

/-- Where a stream ends: in a header, in a body, or somewhere behind a header that announces too
much. -/
inductive Tail (β : Type*)
  | header (h : List β)
  | payload (h p : List β)
  | oversized (h rest : List β)

/-- What is left over. -/
def Tail.word : Tail β → List β
  | header h => h
  | payload h p => h ++ p
  | oversized h rest => h ++ rest

structure Parsed (β : Type*) where
  frames : List (Frame β)
  tail : Tail β

namespace Format

variable (F : Format β)

/-- A stream, taken apart at once. -/
def parse (s : List β) : Parsed β :=
  if s.length < F.header then ⟨[], .header s⟩
  else if F.limit < F.size (s.take F.header) then
    ⟨[], .oversized (s.take F.header) (s.drop F.header)⟩
  else if (s.drop F.header).length < F.size (s.take F.header) then
    ⟨[], .payload (s.take F.header) (s.drop F.header)⟩
  else
    ⟨⟨s.take F.header, (s.drop F.header).take (F.size (s.take F.header))⟩ ::
        (parse ((s.drop F.header).drop (F.size (s.take F.header)))).frames,
      (parse ((s.drop F.header).drop (F.size (s.take F.header)))).tail⟩
termination_by s.length
decreasing_by all_goals
  have hpos := F.header_pos
  rw [List.length_drop, List.length_drop]
  omega

variable {F} {s h p c : List β}

theorem parse_header (hlt : h.length < F.header) : F.parse h = ⟨[], .header h⟩ := by
  rw [parse, if_pos hlt]

theorem parse_nil : F.parse [] = ⟨[], .header []⟩ := parse_header F.header_pos

theorem parse_oversized (hh : h.length = F.header) (hsize : F.limit < F.size h) (rest : List β) :
    F.parse (h ++ rest) = ⟨[], .oversized h rest⟩ := by
  have hge : ¬ (h ++ rest).length < F.header := by
    rw [List.length_append]
    omega
  rw [parse, if_neg hge, List.take_left' hh, List.drop_left' hh, if_pos hsize]

theorem parse_payload (hh : h.length = F.header) (hsize : F.size h ≤ F.limit)
    (hp : p.length < F.size h) : F.parse (h ++ p) = ⟨[], .payload h p⟩ := by
  have hge : ¬ (h ++ p).length < F.header := by
    rw [List.length_append]
    omega
  rw [parse, if_neg hge, List.take_left' hh, List.drop_left' hh, if_neg (Nat.not_lt.mpr hsize),
    if_pos hp]

theorem parse_frame (hh : h.length = F.header) (hsize : F.size h ≤ F.limit)
    (hp : p.length = F.size h) (s : List β) :
    F.parse (h ++ p ++ s) = ⟨⟨h, p⟩ :: (F.parse s).frames, (F.parse s).tail⟩ := by
  have hge : ¬ (h ++ (p ++ s)).length < F.header := by
    rw [List.length_append]
    omega
  have hge' : ¬ (p ++ s).length < F.size h := by
    rw [List.length_append]
    omega
  rw [List.append_assoc, parse, if_neg hge, List.take_left' hh, List.drop_left' hh,
    if_neg (Nat.not_lt.mpr hsize), if_neg hge', List.take_left' hp, List.drop_left' hp]

theorem induct (F : Format β) {P : List β → Prop} (header : ∀ h, h.length < F.header → P h)
    (oversized : ∀ h rest, h.length = F.header → F.limit < F.size h → P (h ++ rest))
    (payload : ∀ h p, h.length = F.header → F.size h ≤ F.limit → p.length < F.size h → P (h ++ p))
    (frame : ∀ h p s, h.length = F.header → F.size h ≤ F.limit → p.length = F.size h → P s →
      P (h ++ p ++ s)) (s : List β) : P s := by
  induction hn : s.length using Nat.strongRecOn generalizing s with
  | ind n ih =>
    rcases Nat.lt_or_ge s.length F.header with hlt | hge
    · exact header s hlt
    have hh : (s.take F.header).length = F.header := List.length_take_of_le hge
    have hrest : (s.drop F.header).length < n := by
      have hpos := F.header_pos
      rw [List.length_drop]
      omega
    rw [← List.take_append_drop F.header s]
    rcases Nat.lt_or_ge F.limit (F.size (s.take F.header)) with hover | hsize
    · exact oversized _ _ hh hover
    rcases Nat.lt_or_ge (s.drop F.header).length (F.size (s.take F.header)) with hp | hp
    · exact payload _ _ hh hsize hp
    · -- a whole frame: what follows it is shorter
      have hless : ((s.drop F.header).drop (F.size (s.take F.header))).length < n :=
        Nat.lt_of_le_of_lt (List.length_drop ▸ Nat.sub_le _ _) hrest
      have hP := frame _ _ _ hh hsize (List.length_take_of_le hp) (ih _ hless _ rfl)
      rwa [List.append_assoc, List.take_append_drop] at hP

theorem parse_append (s c : List β) :
    F.parse (s ++ c) = ⟨(F.parse s).frames ++ (F.parse ((F.parse s).tail.word ++ c)).frames,
      (F.parse ((F.parse s).tail.word ++ c)).tail⟩ := by
  induction s using F.induct with
  | header h hlt =>
    rw [parse_header hlt]
    rfl
  | oversized h rest hh hover =>
    rw [parse_oversized hh hover]
    rfl
  | payload h p hh hsize hp =>
    rw [parse_payload hh hsize hp]
    rfl
  | frame h p s hh hsize hp ih =>
    rw [List.append_assoc (h ++ p), parse_frame hh hsize hp, parse_frame hh hsize hp, ih]
    rfl

theorem parse_append_of_oversized {rest : List β} (hs : (F.parse s).tail = .oversized h rest)
    (c : List β) : F.parse (s ++ c) = ⟨(F.parse s).frames, .oversized h (rest ++ c)⟩ := by
  have hover : h.length = F.header ∧ F.limit < F.size h := by
    induction s using F.induct with
    | header h' hlt =>
      rw [parse_header hlt] at hs
      exact absurd hs (by simp)
    | oversized h' rest' hh hover =>
      rw [parse_oversized hh hover] at hs
      obtain ⟨rfl, -⟩ := Tail.oversized.inj hs
      exact ⟨hh, hover⟩
    | payload h' p hh hsize hp =>
      rw [parse_payload hh hsize hp] at hs
      exact absurd hs (by simp)
    | frame h' p s hh hsize hp ih =>
      rw [parse_frame hh hsize hp] at hs
      exact ih hs
  rw [parse_append, hs, Tail.word, List.append_assoc, parse_oversized hover.1 hover.2,
    List.append_nil]

end Format

end Framing
