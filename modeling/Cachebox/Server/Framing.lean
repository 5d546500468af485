import Cachebox.Protocol.Request
import Cachebox.Theory.Framing

/-!
# Frames of a native connection

The bytes of a connection arrive in reads of any size. `readNativeFrameRanges` reads until the
buffer holds a complete frame, `findCompleteNativeFrames` finds the complete frames in the buffer
from their length fields alone, and `drainFrameRanges` drops them once they are handed on.
-/

namespace Cachebox
namespace Server
open Protocol BigEndian

structure Range where
  start : Nat
  stop : Nat

def Range.slice (buffer : Bytes) (range : Range) : Bytes := buffer.extract range.start range.stop

inductive FrameDrain where
  | frames (ranges : List Range)
  | needMore
  | close

/-- The end of the scan: what was found. -/
def FrameDrain.ofRanges (frames : List Range) : FrameDrain :=
  if frames.isEmpty then .needMore else .frames frames

/-- The scanning loop, with the ranges found so far and the offset behind them. -/
def findFrom (buffer : Bytes) (maxPayloadLen : Nat) (frames : List Range) (offset : Nat) :
    FrameDrain :=
  if buffer.length - offset < headerLen then
    .ofRanges frames
  else
    let payloadLen := ofBytes (buffer.extract (offset + 16) (offset + 20))
    if payloadLen > maxPayloadLen then
      .close
    else
      let frameLen := headerLen + payloadLen
      if buffer.length - offset < frameLen then
        .ofRanges frames
      else
        findFrom buffer maxPayloadLen (frames ++ [⟨offset, offset + frameLen⟩]) (offset + frameLen)
termination_by buffer.length - offset
decreasing_by simp only [headerLen] at *; omega

def findCompleteNativeFrames (buffer : Bytes) (maxPayloadLen : Nat) : FrameDrain :=
  findFrom buffer maxPayloadLen [] 0

/-- The reader yields the bytes of `reads` one after the other; a read of no bytes, or no read
left, is the end of the stream. Returns the ranges, the reads not yet made and the buffer. -/
def readNativeFrameRanges (maxPayloadLen : Nat) (reads : List Bytes) (buffer : Bytes) :
    Option (List Range) × List Bytes × Bytes :=
  match findCompleteNativeFrames buffer maxPayloadLen with
  | .frames ranges => (some ranges, reads, buffer)
  | .close => (none, reads, buffer)
  | .needMore =>
    match reads with
    | [] => (none, [], buffer)
    | chunk :: reads =>
      if chunk.length = 0 then
        (none, reads, buffer)
      else
        readNativeFrameRanges maxPayloadLen reads (buffer ++ chunk)

def drainFrameRanges (buffer : Bytes) (ranges : List Range) : Bytes :=
  match ranges.getLast? with
  | some last => buffer.drop last.stop
  | none => buffer

theorem payloadLen_append {s : Bytes} (h : headerLen ≤ s.length) (t : Bytes) :
    payloadLen (s ++ t) = payloadLen s := by
  simp only [headerLen] at h
  rw [payloadLen, payloadLen, List.extract_eq_take_drop, List.extract_eq_take_drop,
    List.drop_append_of_le_length (by omega), List.take_append_of_le_length]
  rw [List.length_drop]
  omega

theorem payloadLen_drop (s : Bytes) (offset : Nat) :
    payloadLen (s.drop offset) = ofBytes (s.extract (offset + 16) (offset + 20)) := by
  rw [payloadLen, List.extract_eq_take_drop, List.extract_eq_take_drop, List.drop_drop]
  congr 2
  omega

/-- What the scan finds at the front of `s`. -/
def nativeVerdict (maxPayloadLen : Nat) (s : Bytes) : Framing.Verdict :=
  if s.length < headerLen then .more
  else if payloadLen s > maxPayloadLen then .reject
  else if s.length < headerLen + payloadLen s then .more
  else .frame (headerLen + payloadLen s)

theorem nativeVerdict_eq_frame_iff {maxPayloadLen : Nat} {s : Bytes} {len : Nat} :
    nativeVerdict maxPayloadLen s = .frame len ↔
      len = headerLen + payloadLen s ∧ len ≤ s.length ∧ payloadLen s ≤ maxPayloadLen := by
  simp only [nativeVerdict]
  split_ifs
  · exact iff_of_false (by simp) (by omega)
  · exact iff_of_false (by simp) (by omega)
  · exact iff_of_false (by simp) (by omega)
  · rw [Framing.Verdict.frame.injEq]
    omega

theorem nativeVerdict_eq_reject_iff {maxPayloadLen : Nat} {s : Bytes} :
    nativeVerdict maxPayloadLen s = .reject ↔
      headerLen ≤ s.length ∧ maxPayloadLen < payloadLen s := by
  simp only [nativeVerdict]
  split_ifs
  · exact iff_of_false (by simp) (by omega)
  · exact iff_of_true rfl (by omega)
  · exact iff_of_false (by simp) (by omega)
  · exact iff_of_false (by simp) (by omega)

section
variable {maxPayloadLen : Nat} {s : Bytes} {len : Nat}

theorem pos_of_nativeVerdict (h : nativeVerdict maxPayloadLen s = .frame len) : 0 < len := by
  obtain ⟨hlen, -⟩ := nativeVerdict_eq_frame_iff.mp h
  simp only [headerLen] at hlen
  omega

theorem le_length_of_nativeVerdict (h : nativeVerdict maxPayloadLen s = .frame len) :
    len ≤ s.length :=
  (nativeVerdict_eq_frame_iff.mp h).2.1

theorem nativeVerdict_take (h : nativeVerdict maxPayloadLen s = .frame len) :
    nativeVerdict maxPayloadLen (s.take len) = .frame len := by
  obtain ⟨hlen, hle, hmax⟩ := nativeVerdict_eq_frame_iff.mp h
  have htake : (s.take len).length = len := List.length_take_of_le hle
  have hpayload : payloadLen (s.take len ++ s.drop len) = payloadLen (s.take len) :=
    payloadLen_append (by omega) _
  rw [List.take_append_drop] at hpayload
  rw [nativeVerdict_eq_frame_iff, ← hpayload, htake]
  exact ⟨hlen, Nat.le_refl _, hmax⟩

theorem nativeVerdict_append (t : Bytes) (h : nativeVerdict maxPayloadLen s = .frame len) :
    nativeVerdict maxPayloadLen (s ++ t) = .frame len := by
  obtain ⟨hlen, hle, hmax⟩ := nativeVerdict_eq_frame_iff.mp h
  rw [nativeVerdict_eq_frame_iff, payloadLen_append (by omega), List.length_append]
  exact ⟨hlen, by omega, hmax⟩

theorem nativeVerdict_append_of_reject (t : Bytes) (h : nativeVerdict maxPayloadLen s = .reject) :
    nativeVerdict maxPayloadLen (s ++ t) = .reject := by
  obtain ⟨hle, hmax⟩ := nativeVerdict_eq_reject_iff.mp h
  rw [nativeVerdict_eq_reject_iff, payloadLen_append hle, List.length_append]
  exact ⟨by omega, hmax⟩

end

/-- The framing of a connection that accepts payloads of up to `maxPayloadLen` bytes. -/
def nativeFraming (maxPayloadLen : Nat) : Framing UInt8 where
  verdict := nativeVerdict maxPayloadLen
  frame_pos := @pos_of_nativeVerdict maxPayloadLen
  frame_le := @le_length_of_nativeVerdict maxPayloadLen
  frame_take := @nativeVerdict_take maxPayloadLen
  frame_append := @nativeVerdict_append maxPayloadLen
  reject_append := @nativeVerdict_append_of_reject maxPayloadLen

theorem isFrame_iff {maxPayloadLen : Nat} {f : Bytes} :
    (nativeFraming maxPayloadLen).IsFrame f ↔
      f.length = headerLen + payloadLen f ∧ payloadLen f ≤ maxPayloadLen := by
  rw [Framing.IsFrame]
  change nativeVerdict maxPayloadLen f = _ ↔ _
  rw [nativeVerdict_eq_frame_iff]
  simp

/-! ## The scan -/

/-- One turn of the scanning loop. -/
theorem findFrom_eq_verdict (buffer : Bytes) (maxPayloadLen : Nat) (frames : List Range)
    (offset : Nat) :
    findFrom buffer maxPayloadLen frames offset =
      match (nativeFraming maxPayloadLen).verdict (buffer.drop offset) with
      | .more => .ofRanges frames
      | .reject => .close
      | .frame len =>
        findFrom buffer maxPayloadLen (frames ++ [⟨offset, offset + len⟩]) (offset + len) := by
  change _ = match nativeVerdict maxPayloadLen (buffer.drop offset) with
    | .more => _ | .reject => _ | .frame len => _
  rw [findFrom, nativeVerdict, payloadLen_drop, List.length_drop]
  dsimp only
  split_ifs <;> rfl

/-- The ranges of consecutive frames that start at `offset`. -/
def rangesFrom : Nat → List Bytes → List Range
  | _, [] => []
  | offset, f :: fs => ⟨offset, offset + f.length⟩ :: rangesFrom (offset + f.length) fs

section Scan
variable {maxPayloadLen : Nat} {buffer rest : Bytes} {fs : List Bytes}

theorem findFrom_eq (frames : List Range) (offset : Nat)
    (h : (nativeFraming maxPayloadLen).Split (buffer.drop offset) fs rest) :
    findFrom buffer maxPayloadLen frames offset =
      match (nativeFraming maxPayloadLen).verdict rest with
      | .reject => .close
      | _ => .ofRanges (frames ++ rangesFrom offset fs) := by
  induction fs generalizing frames offset with
  | nil =>
    have hdrop : buffer.drop offset = rest := h.eq
    rw [findFrom_eq_verdict, hdrop, rangesFrom, List.append_nil]
    cases hrest : (nativeFraming maxPayloadLen).verdict rest with
    | more => rfl
    | reject => rfl
    | frame len => exact absurd hrest (h.rest len)
  | cons f fs ih =>
    have hf := h.isFrame f (List.mem_cons_self ..)
    have heq : buffer.drop offset = f ++ (fs.flatten ++ rest) := by
      rw [h.eq, List.flatten_cons, List.append_assoc]
    have hnext : (nativeFraming maxPayloadLen).Split (buffer.drop (offset + f.length)) fs rest := by
      refine ⟨?_, fun g hg => h.isFrame g (List.mem_cons_of_mem _ hg), h.rest⟩
      rw [← List.drop_drop, heq, List.drop_left]
    rw [findFrom_eq_verdict, heq, Framing.frame_append _ _ hf]
    simp only []
    rw [ih _ _ hnext, rangesFrom, List.append_assoc, List.singleton_append]

theorem map_slice_rangesFrom (offset : Nat) (h : buffer.drop offset = fs.flatten ++ rest) :
    (rangesFrom offset fs).map (Range.slice buffer) = fs := by
  induction fs generalizing offset with
  | nil => rfl
  | cons f fs ih =>
    rw [List.flatten_cons, List.append_assoc] at h
    have hslice : Range.slice buffer ⟨offset, offset + f.length⟩ = f := by
      rw [Range.slice, List.extract_eq_take_drop, h, Nat.add_sub_cancel_left, List.take_left]
    have hnext : buffer.drop (offset + f.length) = fs.flatten ++ rest := by
      rw [← List.drop_drop, h, List.drop_left]
    rw [rangesFrom, List.map_cons, hslice, ih _ hnext]

theorem drainFrameRanges_rangesFrom (offset : Nat) (h : buffer.drop offset = fs.flatten ++ rest)
    (hne : fs ≠ []) : drainFrameRanges buffer (rangesFrom offset fs) = rest := by
  induction fs generalizing offset with
  | nil => exact absurd rfl hne
  | cons f fs ih =>
    rw [List.flatten_cons, List.append_assoc] at h
    have hnext : buffer.drop (offset + f.length) = fs.flatten ++ rest := by
      rw [← List.drop_drop, h, List.drop_left]
    cases fs with
    | nil => exact hnext
    | cons g fs =>
      rw [← ih _ hnext (List.cons_ne_nil g fs)]
      rfl

end Scan

/-- What `findCompleteNativeFrames` answers on frames followed by a rest. -/
theorem findCompleteNativeFrames_eq {maxPayloadLen : Nat} {buffer rest : Bytes} {fs : List Bytes}
    (h : (nativeFraming maxPayloadLen).Split buffer fs rest) :
    findCompleteNativeFrames buffer maxPayloadLen =
      match (nativeFraming maxPayloadLen).verdict rest with
      | .reject => .close
      | _ => .ofRanges (rangesFrom 0 fs) :=
  findFrom_eq [] 0 h

/-- The ranges that `findCompleteNativeFrames` returns are those of all the frames at the front of
the buffer. -/
theorem split_of_findCompleteNativeFrames {maxPayloadLen : Nat} {buffer : Bytes}
    {ranges : List Range} (h : findCompleteNativeFrames buffer maxPayloadLen = .frames ranges) :
    ∃ fs rest, fs ≠ [] ∧ ranges = rangesFrom 0 fs ∧
      (nativeFraming maxPayloadLen).Split buffer fs rest ∧
      (nativeFraming maxPayloadLen).verdict rest = .more := by
  obtain ⟨fs, rest, hsplit⟩ := (nativeFraming maxPayloadLen).exists_split buffer
  rw [findCompleteNativeFrames_eq hsplit] at h
  cases hrest : (nativeFraming maxPayloadLen).verdict rest with
  | frame len => exact absurd hrest (hsplit.rest len)
  | reject =>
    rw [hrest] at h
    cases h
  | more =>
    rw [hrest] at h
    cases fs with
    | nil => cases h
    | cons f fs =>
      cases h
      exact ⟨f :: fs, rest, List.cons_ne_nil f fs, rfl, hsplit, hrest⟩

/-! ## The read loop -/

/-- Draining shortens the buffer. -/
theorem length_drainFrameRanges_lt {maxPayloadLen : Nat} {buffer : Bytes} {ranges : List Range}
    (h : findCompleteNativeFrames buffer maxPayloadLen = .frames ranges) :
    (drainFrameRanges buffer ranges).length < buffer.length := by
  obtain ⟨fs, rest, hne, rfl, hsplit, -⟩ := split_of_findCompleteNativeFrames h
  have hpos := Framing.length_flatten_pos hsplit.isFrame hne
  have hlen := congrArg List.length hsplit.eq
  rw [drainFrameRanges_rangesFrom 0 hsplit.eq hne]
  rw [List.length_append] at hlen
  omega

theorem readNativeFrameRanges_eq_some {maxPayloadLen : Nat} {reads reads' : List Bytes}
    {buffer buffer' : Bytes} {ranges : List Range}
    (h : readNativeFrameRanges maxPayloadLen reads buffer = (some ranges, reads', buffer')) :
    findCompleteNativeFrames buffer' maxPayloadLen = .frames ranges ∧
      buffer' ++ reads'.flatten = buffer ++ reads.flatten := by
  induction reads generalizing buffer with
  | nil =>
    unfold readNativeFrameRanges at h
    cases hfind : findCompleteNativeFrames buffer maxPayloadLen with
    | frames found =>
      simp only [hfind] at h
      cases h
      exact ⟨hfind, rfl⟩
    | close => simp [hfind] at h
    | needMore => simp [hfind] at h
  | cons chunk reads ih =>
    unfold readNativeFrameRanges at h
    cases hfind : findCompleteNativeFrames buffer maxPayloadLen with
    | frames found =>
      simp only [hfind] at h
      cases h
      exact ⟨hfind, rfl⟩
    | close => simp [hfind] at h
    | needMore =>
      simp only [hfind] at h
      split at h
      · cases h
      · obtain ⟨hfind, heq⟩ := ih h
        refine ⟨hfind, ?_⟩
        rw [heq, List.flatten_cons, List.append_assoc]

/-- What a read returns are complete frames, at least one. -/
theorem frames_of_readNativeFrameRanges {maxPayloadLen : Nat} {reads reads' : List Bytes}
    {buffer buffer' : Bytes} {ranges : List Range}
    (h : readNativeFrameRanges maxPayloadLen reads buffer = (some ranges, reads', buffer')) :
    ranges ≠ [] ∧ ∀ f ∈ ranges.map (Range.slice buffer'),
      f.length = headerLen + payloadLen f ∧ payloadLen f ≤ maxPayloadLen := by
  obtain ⟨fs, rest, hne, rfl, hsplit, -⟩ :=
    split_of_findCompleteNativeFrames (readNativeFrameRanges_eq_some h).1
  rw [map_slice_rangesFrom 0 hsplit.eq]
  refine ⟨?_, fun f hf => isFrame_iff.mp (hsplit.isFrame f hf)⟩
  cases fs with
  | nil => exact absurd rfl hne
  | cons f fs => exact List.cons_ne_nil _ _

/-- The loop of `handle_native_connection`, kept to what it hands on: the frames in the order of
their execution, and what is left in the buffer when the loop ends. -/
def deliverNativeFrames (maxPayloadLen : Nat) (reads : List Bytes) (buffer : Bytes) :
    List Bytes × Bytes :=
  match _h : readNativeFrameRanges maxPayloadLen reads buffer with
  | (none, _, buffer) => ([], buffer)
  | (some ranges, reads, buffer) =>
    let later := deliverNativeFrames maxPayloadLen reads (drainFrameRanges buffer ranges)
    (ranges.map (Range.slice buffer) ++ later.1, later.2)
termination_by (buffer ++ reads.flatten).length
decreasing_by
  obtain ⟨hfind, heq⟩ := readNativeFrameRanges_eq_some _h
  have hlt := length_drainFrameRanges_lt hfind
  rw [← heq, List.length_append, List.length_append]
  omega

section Deliver
variable {maxPayloadLen : Nat} {reads : List Bytes} {buffer rest : Bytes} {fs : List Bytes}

theorem deliverNativeFrames_of_none {reads' : List Bytes} {buffer' : Bytes}
    (h : readNativeFrameRanges maxPayloadLen reads buffer = (none, reads', buffer')) :
    deliverNativeFrames maxPayloadLen reads buffer = ([], buffer') := by
  rw [deliverNativeFrames]
  split
  next heq =>
    rw [h] at heq
    cases heq
    rfl
  next heq =>
    rw [h] at heq
    cases heq

theorem deliverNativeFrames_of_some {reads' : List Bytes} {buffer' : Bytes} {ranges : List Range}
    (h : readNativeFrameRanges maxPayloadLen reads buffer = (some ranges, reads', buffer')) :
    deliverNativeFrames maxPayloadLen reads buffer =
      (ranges.map (Range.slice buffer') ++
          (deliverNativeFrames maxPayloadLen reads' (drainFrameRanges buffer' ranges)).1,
        (deliverNativeFrames maxPayloadLen reads' (drainFrameRanges buffer' ranges)).2) := by
  rw [deliverNativeFrames]
  split
  next heq =>
    rw [h] at heq
    cases heq
  next heq =>
    rw [h] at heq
    cases heq
    rfl

/-- A violation behind the frames of a buffer closes the connection, and the frames are lost. -/
theorem deliverNativeFrames_of_reject (h : (nativeFraming maxPayloadLen).Split buffer fs rest)
    (hrest : (nativeFraming maxPayloadLen).verdict rest = .reject) :
    deliverNativeFrames maxPayloadLen reads buffer = ([], buffer) := by
  have hread : readNativeFrameRanges maxPayloadLen reads buffer = (none, reads, buffer) := by
    unfold readNativeFrameRanges
    simp only [findCompleteNativeFrames_eq h, hrest]
  exact deliverNativeFrames_of_none hread

/-- The frames at the front of a buffer are delivered before anything is read. -/
theorem deliverNativeFrames_of_more (h : (nativeFraming maxPayloadLen).Split buffer fs rest)
    (hrest : (nativeFraming maxPayloadLen).verdict rest = .more) :
    deliverNativeFrames maxPayloadLen reads buffer =
      (fs ++ (deliverNativeFrames maxPayloadLen reads rest).1,
        (deliverNativeFrames maxPayloadLen reads rest).2) := by
  cases fs with
  | nil =>
    rw [h.eq]
    rfl
  | cons f fs =>
    have hread : readNativeFrameRanges maxPayloadLen reads buffer =
        (some (rangesFrom 0 (f :: fs)), reads, buffer) := by
      unfold readNativeFrameRanges
      simp only [findCompleteNativeFrames_eq h, hrest]
      rfl
    rw [deliverNativeFrames_of_some hread, map_slice_rangesFrom 0 h.eq,
      drainFrameRanges_rangesFrom 0 h.eq (List.cons_ne_nil f fs)]

theorem findCompleteNativeFrames_of_more
    (h : (nativeFraming maxPayloadLen).verdict buffer = .more) :
    findCompleteNativeFrames buffer maxPayloadLen = .needMore := by
  have hsplit : (nativeFraming maxPayloadLen).Split buffer [] buffer :=
    .of_more rfl (List.forall_mem_nil _) h
  rw [findCompleteNativeFrames_eq hsplit, h]
  rfl

theorem deliverNativeFrames_nil (h : (nativeFraming maxPayloadLen).verdict buffer = .more) :
    deliverNativeFrames maxPayloadLen [] buffer = ([], buffer) := by
  have hread : readNativeFrameRanges maxPayloadLen [] buffer = (none, [], buffer) := by
    unfold readNativeFrameRanges
    simp only [findCompleteNativeFrames_of_more h]
  exact deliverNativeFrames_of_none hread

theorem deliverNativeFrames_cons (h : (nativeFraming maxPayloadLen).verdict buffer = .more)
    {chunk : Bytes} (hchunk : chunk ≠ []) :
    deliverNativeFrames maxPayloadLen (chunk :: reads) buffer =
      deliverNativeFrames maxPayloadLen reads (buffer ++ chunk) := by
  have hlen : chunk.length ≠ 0 := by simpa using hchunk
  have hread : readNativeFrameRanges maxPayloadLen (chunk :: reads) buffer =
      readNativeFrameRanges maxPayloadLen reads (buffer ++ chunk) := by
    rw [readNativeFrameRanges.eq_def maxPayloadLen (chunk :: reads)]
    simp only [findCompleteNativeFrames_of_more h, if_neg hlen]
  rcases hresult : readNativeFrameRanges maxPayloadLen reads (buffer ++ chunk) with
    ⟨_ | ranges, reads', buffer'⟩
  · rw [deliverNativeFrames_of_none hresult, deliverNativeFrames_of_none (hread.trans hresult)]
  · rw [deliverNativeFrames_of_some hresult, deliverNativeFrames_of_some (hread.trans hresult)]

/-! ## Streams of frames -/

/-- A stream of frames that ends within a frame is delivered whole, however it is read. The
induction is on the reads; what is in the buffer before a read is the beginning of a frame. -/
theorem deliverNativeFrames_eq {tail : Bytes}
    (hfs : ∀ f ∈ fs, (nativeFraming maxPayloadLen).IsFrame f)
    (htail : (nativeFraming maxPayloadLen).verdict tail = .more)
    (hbuffer : (nativeFraming maxPayloadLen).verdict buffer = .more)
    (hreads : ∀ chunk ∈ reads, chunk ≠ []) (h : buffer ++ reads.flatten = fs.flatten ++ tail) :
    deliverNativeFrames maxPayloadLen reads buffer = (fs, tail) := by
  induction reads generalizing buffer fs with
  | nil =>
    rw [List.flatten_nil, List.append_nil] at h
    obtain rfl := Framing.eq_nil_of_verdict_eq_more hfs (h ▸ hbuffer)
    rw [deliverNativeFrames_nil hbuffer, h]
    rfl
  | cons chunk reads ih =>
    rw [List.forall_mem_cons] at hreads
    rw [List.flatten_cons, ← List.append_assoc] at h
    obtain ⟨done, fs', rest, rfl, hdone, hrest, hmore⟩ := Framing.split_of_append hfs h
    rw [List.forall_mem_append] at hfs
    have hmore : (nativeFraming maxPayloadLen).verdict rest = .more := by
      obtain rfl | hmore := hmore
      · rw [List.flatten_nil, List.nil_append] at hrest
        rw [← hrest] at htail
        exact Framing.verdict_eq_more_of_append htail
      · exact hmore
    rw [deliverNativeFrames_cons hbuffer hreads.1,
      deliverNativeFrames_of_more (.of_more hdone hfs.1 hmore) hmore,
      ih hfs.2 hmore hreads.2 hrest]

/-- How far the reads are, counted from the frames that are complete after the first one. -/
theorem length_received_cons {chunk : Bytes} (h : buffer ++ chunk = fs.flatten ++ rest)
    (reads : List Bytes) (k : Nat) :
    (buffer ++ ((chunk :: reads).take (k + 1)).flatten).length =
      fs.flatten.length + (rest ++ (reads.take k).flatten).length := by
  rw [List.take_succ_cons, List.flatten_cons, ← List.append_assoc, h, List.append_assoc,
    List.length_append]

/-- Before a violation, all frames are delivered exactly if some read stops behind the last of them
and before the violation is seen: otherwise the violation is found together with them. -/
theorem deliverNativeFrames_fst_eq_iff {bad : Bytes}
    (hfs : ∀ f ∈ fs, (nativeFraming maxPayloadLen).IsFrame f)
    (hbad : (nativeFraming maxPayloadLen).verdict bad = .reject)
    (hfront : ∀ s t, s ++ t = bad → t ≠ [] → (nativeFraming maxPayloadLen).verdict s = .more)
    (hbuffer : (nativeFraming maxPayloadLen).verdict buffer = .more)
    (hreads : ∀ chunk ∈ reads, chunk ≠ []) (h : buffer ++ reads.flatten = fs.flatten ++ bad) :
    (deliverNativeFrames maxPayloadLen reads buffer).1 = fs ↔
      fs = [] ∨ ∃ k, fs.flatten.length ≤ (buffer ++ (reads.take k).flatten).length ∧
        (buffer ++ (reads.take k).flatten).length < fs.flatten.length + bad.length := by
  induction reads generalizing buffer fs with
  | nil =>
    rw [List.flatten_nil, List.append_nil] at h
    obtain rfl := Framing.eq_nil_of_verdict_eq_more hfs (h ▸ hbuffer)
    rw [deliverNativeFrames_nil hbuffer]
    simp
  | cons chunk reads ih =>
    rw [List.forall_mem_cons] at hreads
    -- no read stops behind the frames while the buffer waits for the first of them
    have hzero := Framing.eq_nil_of_length_le hfs hbuffer h
    rw [List.flatten_cons, ← List.append_assoc] at h
    obtain ⟨done, fs', rest, rfl, hdone, hrest, hmore⟩ := Framing.split_of_append hfs h
    rw [List.forall_mem_append] at hfs
    have hlen := length_received_cons hdone reads
    rw [deliverNativeFrames_cons hbuffer hreads.1, List.flatten_append, List.length_append]
    by_cases hrestMore : (nativeFraming maxPayloadLen).verdict rest = .more
    · rw [deliverNativeFrames_of_more (.of_more hdone hfs.1 hrestMore) hrestMore,
        List.append_cancel_left_eq, ih hfs.2 hrestMore hreads.2 hrest]
      constructor
      · rintro (rfl | ⟨k, hle, hlt⟩)
        · -- the reads so far stop within the violation
          rw [List.flatten_nil, List.nil_append] at hrest
          have hpos := Framing.length_pos_of_reject hrestMore (hrest ▸ hbad)
          have htotal := congrArg List.length hrest
          rw [List.length_append] at htotal
          refine .inr ⟨1, ?_⟩
          rw [hlen, List.take_zero, List.flatten_nil, List.append_nil, List.length_nil]
          omega
        · refine .inr ⟨k + 1, ?_⟩
          rw [hlen]
          omega
      · rintro (hnil | ⟨_ | k, hle, hlt⟩)
        · exact .inl (List.append_eq_nil_iff.mp hnil).2
        · rw [List.take_zero, List.flatten_nil, List.append_nil, ← List.length_append,
            ← List.flatten_append] at hle
          exact .inl (List.append_eq_nil_iff.mp (hzero hle)).2
        · rw [hlen] at hle hlt
          exact .inr ⟨k, by omega, by omega⟩
    · -- the violation is in the buffer, behind `done`
      obtain rfl : fs' = [] := hmore.resolve_right hrestMore
      rw [List.flatten_nil, List.nil_append] at hrest
      have hreadsNil : reads.flatten = [] := by
        by_contra hne
        exact hrestMore (hfront rest _ hrest hne)
      obtain rfl : rest = bad := by rw [← hrest, hreadsNil, List.append_nil]
      rw [List.append_nil] at hzero ⊢
      rw [deliverNativeFrames_of_reject (.of_reject hdone hfs.1 hbad) hbad]
      constructor
      · exact fun hnil => .inl hnil.symm
      · rintro (hnil | ⟨_ | k, hle, hlt⟩)
        · exact hnil.symm
        · simp only [List.take_zero, List.flatten_nil, List.append_nil, List.length_nil,
            Nat.add_zero] at hle
          exact (hzero hle).symm
        · rw [hlen, List.length_append] at hlt
          simp only [List.flatten_nil, List.length_nil] at hlt
          omega

end Deliver

theorem isFrame_of_encodeRequestFrame {maxPayloadLen : Nat} {f : RequestFrame} {bytes : Bytes}
    (h : encodeRequestFrame f = some bytes)
    (hmax : (encodeRequestPayload f.payload []).length ≤ maxPayloadLen) :
    (nativeFraming maxPayloadLen).IsFrame bytes := by
  rw [encodeRequestPayload_eq, List.nil_append] at hmax
  rw [encodeRequestFrame_eq] at h
  split at h
  next hlt =>
    cases h
    have hpayload := payloadLen_frameBytes kindRequest f.command f.requestId hlt []
    rw [List.append_nil] at hpayload
    rw [isFrame_iff, hpayload, length_frameBytes]
    exact ⟨rfl, hmax⟩
  next => cases h

theorem verdict_nil (maxPayloadLen : Nat) : (nativeFraming maxPayloadLen).verdict [] = .more := rfl

/-- However the frames of a connection are cut into reads, each of them is delivered once, in
order, and what has arrived of the next one waits in the buffer. -/
theorem deliverNativeFrames_independent_of_reads {maxPayloadLen : Nat}
    {frames : List RequestFrame} {encoded : List Bytes}
    (hencoded : List.Forall₂ (fun f bytes => encodeRequestFrame f = some bytes) frames encoded)
    (hmax : ∀ f ∈ frames, (encodeRequestPayload f.payload []).length ≤ maxPayloadLen)
    {next : RequestFrame} {nextBytes tail : Bytes}
    (hnext : encodeRequestFrame next = some nextBytes)
    (hnextMax : (encodeRequestPayload next.payload []).length ≤ maxPayloadLen)
    (htail : tail <+: nextBytes) (hproper : tail ≠ nextBytes) {reads : List Bytes}
    (hreads : ∀ chunk ∈ reads, chunk ≠ []) (hstream : reads.flatten = encoded.flatten ++ tail) :
    deliverNativeFrames maxPayloadLen reads [] = (encoded, tail) := by
  apply deliverNativeFrames_eq _ _ (verdict_nil maxPayloadLen) hreads hstream
  · clear hstream
    induction hencoded with
    | nil => simp
    | cons h _ ih =>
      rw [List.forall_mem_cons] at hmax ⊢
      exact ⟨isFrame_of_encodeRequestFrame h hmax.1, ih hmax.2⟩
  · obtain ⟨missing, rfl⟩ := htail
    refine (isFrame_of_encodeRequestFrame hnext hnextMax).verdict_front ?_
    rintro rfl
    exact hproper (List.append_nil tail).symm

def getRequest : RequestFrame :=
  { requestId := 1, command := .get, payload := .get "default" [1] }

def getRequestBytes : Bytes := frameBytes kindRequest .get 1 (getRequest.payload.wire 0)

theorem encodeRequestFrame_getRequest : encodeRequestFrame getRequest = some getRequestBytes := by
  decide +kernel

/-- A get request and three quarters of another one, in three reads that cut both. -/
theorem deliverNativeFrames_independent_of_reads_get :
    deliverNativeFrames 16 [getRequestBytes.take 3,
        getRequestBytes.drop 3 ++ getRequestBytes.take 7, getRequestBytes.extract 7 30] [] =
      ([getRequestBytes], getRequestBytes.take 30) :=
  deliverNativeFrames_independent_of_reads (.cons encodeRequestFrame_getRequest .nil)
    (by decide +kernel) encodeRequestFrame_getRequest (by decide +kernel)
    (List.take_prefix 30 _) (by decide +kernel) (by decide +kernel) (by decide +kernel)

/-! ## A violation behind the frames -/

/-- Some read ends behind the last of `frames` and before the next header is complete. -/
def StopsBehind (frames : List Bytes) (reads : List Bytes) : Prop :=
  ∃ k, frames.flatten.length ≤ (reads.take k).flatten.length ∧
    (reads.take k).flatten.length < frames.flatten.length + headerLen

section Violation
variable {maxPayloadLen : Nat} {frames : List Bytes} {header : Bytes}

theorem deliverNativeFrames_oversized_iff
    (hframes : ∀ f ∈ frames, f.length = headerLen + payloadLen f ∧ payloadLen f ≤ maxPayloadLen)
    (hheader : header.length = headerLen) (hoversized : maxPayloadLen < payloadLen header)
    {reads : List Bytes} (hreads : ∀ chunk ∈ reads, chunk ≠ [])
    (hstream : reads.flatten = frames.flatten ++ header) :
    (deliverNativeFrames maxPayloadLen reads []).1 = frames ↔
      frames = [] ∨ StopsBehind frames reads := by
  have hbad : (nativeFraming maxPayloadLen).verdict header = .reject :=
    nativeVerdict_eq_reject_iff.mpr ⟨hheader.ge, hoversized⟩
  have hfront : ∀ s t, s ++ t = header → t ≠ [] →
      (nativeFraming maxPayloadLen).verdict s = .more := by
    intro s t hst ht
    have hlen := congrArg List.length hst
    have hpos := List.length_pos_iff.mpr ht
    rw [List.length_append, hheader] at hlen
    exact if_pos (by omega)
  rw [deliverNativeFrames_fst_eq_iff (fun f hf => isFrame_iff.mpr (hframes f hf)) hbad hfront
    (verdict_nil maxPayloadLen) hreads hstream, hheader]
  simp only [List.nil_append, StopsBehind]

/-- Two ways of reading frames and an oversized header deliver all the frames exactly if both have
a read that ends behind the frames before the header is complete, or there are no frames. -/
theorem deliverNativeFrames_before_violation_iff
    (hframes : ∀ f ∈ frames, f.length = headerLen + payloadLen f ∧ payloadLen f ≤ maxPayloadLen)
    (hheader : header.length = headerLen) (hoversized : maxPayloadLen < payloadLen header)
    {reads reads' : List Bytes} (hreads : ∀ chunk ∈ reads, chunk ≠ [])
    (hreads' : ∀ chunk ∈ reads', chunk ≠ []) (hstream : reads.flatten = frames.flatten ++ header)
    (hstream' : reads'.flatten = frames.flatten ++ header) :
    (deliverNativeFrames maxPayloadLen reads []).1 =
          (deliverNativeFrames maxPayloadLen reads' []).1 ∧
        (deliverNativeFrames maxPayloadLen reads []).1 = frames ↔
      frames = [] ∨ StopsBehind frames reads ∧ StopsBehind frames reads' := by
  have hiff := deliverNativeFrames_oversized_iff hframes hheader hoversized hreads hstream
  have hiff' := deliverNativeFrames_oversized_iff hframes hheader hoversized hreads' hstream'
  rw [or_and_left, ← hiff, ← hiff']
  constructor
  · rintro ⟨heq, h⟩
    exact ⟨h, heq ▸ h⟩
  · rintro ⟨h, h'⟩
    exact ⟨h.trans h'.symm, h⟩

end Violation

/-- The header of a request with 17 bytes of payload, one more than the limit below. -/
def oversizedHeader : Bytes := headerBytes kindRequest Command.get.id 2 17

theorem deliverNativeFrames_before_violation_get :
    (deliverNativeFrames 16 [getRequestBytes, oversizedHeader] []).1 =
        (deliverNativeFrames 16 [getRequestBytes ++ oversizedHeader.take 3,
          oversizedHeader.drop 3] []).1 ∧
      (deliverNativeFrames 16 [getRequestBytes, oversizedHeader] []).1 = [getRequestBytes] :=
  (deliverNativeFrames_before_violation_iff (by decide +kernel)
      (show oversizedHeader.length = headerLen by decide +kernel) (by decide +kernel)
      (by decide +kernel) (by decide +kernel) (by decide +kernel) (by decide +kernel)).mpr
    (.inr ⟨⟨1, by decide +kernel⟩, ⟨1, by decide +kernel⟩⟩)

/-- Read at once, the header closes the connection and the request before it is dropped. -/
theorem deliverNativeFrames_drops_frame :
    getRequestBytes.length = headerLen + payloadLen getRequestBytes ∧
      payloadLen getRequestBytes ≤ 16 ∧
      oversizedHeader.length = headerLen ∧ 16 < payloadLen oversizedHeader ∧
      (deliverNativeFrames 16 [getRequestBytes, oversizedHeader] []).1 = [getRequestBytes] ∧
      (deliverNativeFrames 16 [getRequestBytes ++ oversizedHeader] []).1 = [] := by
  decide +kernel

end Server
end Cachebox
