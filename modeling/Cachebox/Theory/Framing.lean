import Mathlib.Data.List.Basic

/-!
# Cutting a stream into frames

A `Framing` judges the front of a buffer: a complete frame, not enough yet, or a violation. Later
input does not change a judgement (`frame_append`, `reject_append`), which is what makes the frames
found in a stream independent of how far it has arrived (`Framing.split_of_append`).
-/

/-- What the front of a buffer shows. -/
inductive Framing.Verdict where
  | frame (len : Nat)
  | more
  | reject

structure Framing (β : Type*) where
  verdict : List β → Framing.Verdict
  frame_pos : ∀ {s len}, verdict s = .frame len → 0 < len
  frame_le : ∀ {s len}, verdict s = .frame len → len ≤ s.length
  frame_take : ∀ {s len}, verdict s = .frame len → verdict (s.take len) = .frame len
  frame_append : ∀ {s len} t, verdict s = .frame len → verdict (s ++ t) = .frame len
  reject_append : ∀ {s} t, verdict s = .reject → verdict (s ++ t) = .reject

namespace Framing
variable {β : Type*} (F : Framing β)

/-- One frame with nothing after it. -/
def IsFrame (s : List β) : Prop := F.verdict s = .frame s.length

/-- `s` is the frames `fs` followed by `rest`, which does not start with a frame. -/
structure Split (s : List β) (fs : List (List β)) (rest : List β) : Prop where
  eq : s = fs.flatten ++ rest
  isFrame : ∀ f ∈ fs, F.IsFrame f
  rest : ∀ len, F.verdict rest ≠ .frame len

variable {F} {f s t b c tail rest : List β} {fs gs : List (List β)} {len : Nat}

theorem isFrame_take (h : F.verdict s = .frame len) : F.IsFrame (s.take len) := by
  rw [IsFrame, F.frame_take h, List.length_take, Nat.min_eq_left (F.frame_le h)]

theorem IsFrame.length_pos (h : F.IsFrame f) : 0 < f.length := F.frame_pos h

theorem length_flatten_pos (hfs : ∀ f ∈ fs, F.IsFrame f) (hne : fs ≠ []) :
    0 < fs.flatten.length := by
  cases fs with
  | nil => exact absurd rfl hne
  | cons f fs =>
    have hpos := (hfs f (List.mem_cons_self ..)).length_pos
    rw [List.flatten_cons, List.length_append]
    omega

theorem Split.of_more (h : s = fs.flatten ++ rest) (hfs : ∀ f ∈ fs, F.IsFrame f)
    (hrest : F.verdict rest = .more) : F.Split s fs rest := by
  refine ⟨h, hfs, fun len hlen => ?_⟩
  rw [hrest] at hlen
  cases hlen

theorem Split.of_reject (h : s = fs.flatten ++ rest) (hfs : ∀ f ∈ fs, F.IsFrame f)
    (hrest : F.verdict rest = .reject) : F.Split s fs rest := by
  refine ⟨h, hfs, fun len hlen => ?_⟩
  rw [hrest] at hlen
  cases hlen

/-- A buffer that waits for more input waited at every earlier moment. -/
theorem verdict_eq_more_of_append (h : F.verdict (s ++ t) = .more) : F.verdict s = .more := by
  cases hs : F.verdict s with
  | more => rfl
  | frame len =>
    rw [F.frame_append t hs] at h
    cases h
  | reject =>
    rw [F.reject_append t hs] at h
    cases h

theorem IsFrame.verdict_front (hf : F.IsFrame (s ++ t)) (ht : t ≠ []) : F.verdict s = .more := by
  have hlt : s.length < (s ++ t).length := by
    rw [List.length_append]
    exact Nat.lt_add_of_pos_right (List.length_pos_iff.mpr ht)
  cases hs : F.verdict s with
  | more => rfl
  | frame len =>
    have hle := F.frame_le hs
    have heq := F.frame_append t hs
    rw [hf] at heq
    cases heq
    omega
  | reject =>
    have heq := F.reject_append t hs
    rw [hf] at heq
    cases heq

/-- A buffer that waits for more input does not start with a frame. -/
theorem eq_nil_of_verdict_eq_more (hfs : ∀ f ∈ fs, F.IsFrame f)
    (h : F.verdict (fs.flatten ++ t) = .more) : fs = [] := by
  cases fs with
  | nil => rfl
  | cons f fs =>
    have hf := F.frame_append (fs.flatten ++ t) (hfs f (List.mem_cons_self ..))
    rw [List.flatten_cons, List.append_assoc, hf] at h
    cases h

theorem eq_nil_of_length_le (hfs : ∀ f ∈ fs, F.IsFrame f) (hb : F.verdict b = .more)
    (h : b ++ c = fs.flatten ++ tail) (hle : fs.flatten.length ≤ b.length) : fs = [] := by
  have hpre : fs.flatten <+: b :=
    List.prefix_of_prefix_length_le (h ▸ List.prefix_append ..) (List.prefix_append b c) hle
  obtain ⟨d, rfl⟩ := hpre
  exact eq_nil_of_verdict_eq_more hfs hb

/-- What has arrived of a stream of frames is some of the frames, and then the tail of the stream
or the beginning of the next frame. -/
theorem split_of_append (hfs : ∀ f ∈ fs, F.IsFrame f) (h : b ++ c = fs.flatten ++ tail) :
    ∃ done fs' rest, fs = done ++ fs' ∧ b = done.flatten ++ rest ∧
      rest ++ c = fs'.flatten ++ tail ∧ (fs' = [] ∨ F.verdict rest = .more) := by
  induction fs generalizing b with
  | nil => exact ⟨[], [], b, rfl, rfl, h, .inl rfl⟩
  | cons f fs ih =>
    rw [List.forall_mem_cons] at hfs
    rw [List.flatten_cons, List.append_assoc] at h
    obtain ⟨d, hf, hc⟩ | ⟨d, rfl, hd⟩ := List.append_eq_append_iff.mp h
    · -- the buffer ends within the first frame or at its end
      cases d with
      | nil =>
        rw [List.append_nil] at hf
        obtain ⟨done, fs', rest, rfl, hrest, htail, hmore⟩ := ih (b := []) hfs.2 hc
        refine ⟨f :: done, fs', rest, rfl, ?_, htail, hmore⟩
        rw [List.flatten_cons, List.append_assoc, ← hrest, List.append_nil, hf]
      | cons x d =>
        subst hf
        refine ⟨[], (b ++ x :: d) :: fs, b, rfl, rfl, ?_,
          .inr (hfs.1.verdict_front (List.cons_ne_nil x d))⟩
        rw [hc, List.flatten_cons, List.append_assoc, List.append_assoc]
    · obtain ⟨done, fs', rest, rfl, rfl, htail, hmore⟩ := ih hfs.2 hd.symm
      refine ⟨f :: done, fs', rest, rfl, ?_, htail, hmore⟩
      rw [List.flatten_cons, List.append_assoc]

/-- A violation is found with input that has not arrived while the buffer waits. -/
theorem length_pos_of_reject (hmore : F.verdict s = .more)
    (hreject : F.verdict (s ++ t) = .reject) : 0 < t.length := by
  rw [List.length_pos_iff]
  rintro rfl
  rw [List.append_nil, hmore] at hreject
  cases hreject

/-- Every buffer splits into frames and a rest. -/
theorem exists_split (F : Framing β) (s : List β) : ∃ fs rest, F.Split s fs rest := by
  induction hn : s.length using Nat.strongRecOn generalizing s with
  | _ n ih =>
    by_cases h : ∃ len, F.verdict s = .frame len
    · obtain ⟨len, hlen⟩ := h
      have hpos := F.frame_pos hlen
      have hle := F.frame_le hlen
      have hdrop : (s.drop len).length < n := by
        rw [List.length_drop]
        omega
      obtain ⟨fs, rest, hsplit⟩ := ih _ hdrop (s.drop len) rfl
      refine ⟨s.take len :: fs, rest, ?_, ?_, hsplit.rest⟩
      · rw [List.flatten_cons, List.append_assoc, ← hsplit.eq, List.take_append_drop]
      · rw [List.forall_mem_cons]
        exact ⟨isFrame_take hlen, hsplit.isFrame⟩
    · exact ⟨[], s, rfl, by simp, not_exists.mp h⟩

end Framing
