import Remora.ChunkedParsing
import Mathlib.Algebra.Group.Nat.Defs

/-!
# Framing on a connection

A worker writes every message as its length, four bytes with the highest first, and its bytes, and
it writes what it has received from the application at once. The reader of the other end appends
each read to a buffer, takes all complete frames off it in a loop over offsets, and hands them to
the tasks that deserialize and forward them. A length above `maxMessageSize` is an error that ends
the connection.

The loop is a parser on the buffer (`frameParser`, `extractFrames_of_items_ok`), and the reader is
its `read` (`handleReadStream_eq`). Therefore the frames do not depend on how the network cuts the
stream (`framing_round_trip`). But the error returns from inside the loop, and the frames of the
same read are dropped with it : all frames are handed on if and only if a read ends after the last
of them and before the length that is too large is complete (`frames_before_oversize_iff`).
-/

namespace Remora

namespace ConnectionWorker

open ChunkedParsing

/-- The maximum size of a network message. -/
def maxMessageSize : ℕ := 16 * 1024 * 1024

/-- The maximum batch size for batched processing. -/
def maxBatchSize : ℕ := 16

/-! ## Lengths -/

/-- `u32::to_be_bytes`. -/
def toBeBytes (n : ℕ) : List UInt8 :=
  [n / 2 ^ 24, n / 2 ^ 16, n / 2 ^ 8, n].map UInt8.ofNat

/-- `BigEndian::read_u32`. -/
def readU32 (bytes : List UInt8) : ℕ :=
  bytes.foldl (fun n b => n * 2 ^ 8 + b.toNat) 0

theorem readU32_toBeBytes {n : ℕ} (h : n < 2 ^ 32) : readU32 (toBeBytes n) = n := by
  simp only [readU32, toBeBytes, List.map_cons, List.map_nil, List.foldl_cons, List.foldl_nil,
    UInt8.toNat_ofNat']
  omega

/-! ## The reader -/

/-- What `handle_read_stream` returns an error for : the socket, or the length of a frame. -/
inductive ReadError (ε : Type)
  | socket (e : ε)
  | invalidData (message : String)
  deriving DecidableEq, Repr

variable {ε : Type}

def frameTooLarge (size : ℕ) : ReadError ε :=
  .invalidData s!"Frame too large: {size} > {maxMessageSize}"

/-- The loop over the frames in the buffer : the frames, and the offset behind them. -/
def extractFrames (buf : List UInt8) (offset : ℕ) (frames : List (List UInt8)) :
    Except (ReadError ε) (List (List UInt8) × ℕ) :=
  if offset + 4 ≤ buf.length then
    let size := readU32 (buf.extract offset (offset + 4))
    if maxMessageSize < size then .error (frameTooLarge size)
    else if buf.length < offset + 4 + size then .ok (frames, offset)
    else
      let start := offset + 4
      extractFrames buf (start + size) (frames ++ [buf.extract start (start + size)])
  else .ok (frames, offset)
termination_by buf.length - offset

/-- `handle_read_stream` : the frames it hands to the next step, read by read, and what is left in
the buffer when the peer closes the connection. -/
def handleReadStream (buf : List UInt8) : List (Except ε (List UInt8)) →
    List (List (List UInt8)) × Except (ReadError ε) (List UInt8)
  | [] => ([], .ok buf)
  | .error e :: _ => ([], .error (.socket e))
  | .ok bytes :: reads =>
    if bytes.isEmpty then ([], .ok buf)
    else
      match extractFrames (buf ++ bytes) 0 [] with
      | .error e => ([], .error e)
      | .ok (frames, offset) =>
        let (forwarded, result) := handleReadStream ((buf ++ bytes).drop offset) reads
        (frames :: forwarded, result)

/-! ## The writer -/

/-- The bytes of a message on the stream. Its length is cut to 32 bits. -/
def frame (serialized : List UInt8) : List UInt8 :=
  toBeBytes (serialized.length % 2 ^ 32) ++ serialized

/-- `handle_write_stream` : what it writes, if `recv_many` returns these batches. -/
def handleWriteStream {ω : Type} (serialize : ω → List UInt8) : List (List ω) → List (List UInt8)
  | [] => []
  | buffer :: batches =>
    if buffer.isEmpty then []
    else (buffer.flatMap fun transaction => frame (serialize transaction)) ::
      handleWriteStream serialize batches

/-- How `recv_many` groups the messages of the application. -/
structure RecvMany {ω : Type} (messages : List ω) where
  batches : List (List ω)
  flatten : batches.flatten = messages
  ne_nil : ∀ buffer ∈ batches, buffer ≠ []
  length_le : ∀ buffer ∈ batches, buffer.length ≤ maxBatchSize

/-! ## The parser of frames -/

/-- The frame at the beginning of a buffer. -/
def nextFrame (b : List UInt8) : Next (List UInt8) UInt8 (ReadError ε) :=
  if b.length < 4 then .wait
  else if maxMessageSize < readU32 (b.take 4) then .reject (frameTooLarge (readU32 (b.take 4)))
  else if b.length < 4 + readU32 (b.take 4) then .wait
  else .item ((b.drop 4).take (readU32 (b.take 4))) (b.drop (4 + readU32 (b.take 4)))

section NextFrame

variable {b : List UInt8}

theorem nextFrame_of_short (h : b.length < 4) : nextFrame b = (.wait : Next _ _ (ReadError ε)) :=
  if_pos h

theorem nextFrame_of_tooLarge (h : 4 ≤ b.length) (hsize : maxMessageSize < readU32 (b.take 4)) :
    nextFrame b = (.reject (frameTooLarge (readU32 (b.take 4))) : Next _ _ (ReadError ε)) := by
  rw [nextFrame, if_neg (by omega), if_pos hsize]

theorem nextFrame_of_complete (hsize : readU32 (b.take 4) ≤ maxMessageSize)
    (h : 4 + readU32 (b.take 4) ≤ b.length) :
    nextFrame b = (.item ((b.drop 4).take (readU32 (b.take 4)))
      (b.drop (4 + readU32 (b.take 4))) : Next _ _ (ReadError ε)) := by
  rw [nextFrame, if_neg (by omega), if_neg (Nat.not_lt.mpr hsize), if_neg (Nat.not_lt.mpr h)]

theorem nextFrame_eq_item {a r : List UInt8}
    (h : nextFrame b = (.item a r : Next _ _ (ReadError ε))) :
    readU32 (b.take 4) ≤ maxMessageSize ∧ 4 + readU32 (b.take 4) ≤ b.length ∧
      a = (b.drop 4).take (readU32 (b.take 4)) ∧ r = b.drop (4 + readU32 (b.take 4)) := by
  unfold nextFrame at h
  split_ifs at h with hshort hsize hincomplete
  obtain ⟨rfl, rfl⟩ := Next.item.inj h
  exact ⟨Nat.not_lt.mp hsize, Nat.not_lt.mp hincomplete, rfl, rfl⟩

theorem nextFrame_eq_reject {e : ReadError ε} (h : nextFrame b = .reject e) :
    4 ≤ b.length ∧ maxMessageSize < readU32 (b.take 4) ∧
      e = frameTooLarge (readU32 (b.take 4)) := by
  unfold nextFrame at h
  split_ifs at h with hshort hsize
  exact ⟨Nat.not_lt.mp hshort, hsize, (Next.reject.inj h).symm⟩

end NextFrame

/-- The parser that the loop over the buffer is. -/
def frameParser (ε : Type) : Parser (List UInt8) UInt8 (ReadError ε) where
  next := nextFrame
  length_lt h := by
    obtain ⟨-, hlength, -, rfl⟩ := nextFrame_eq_item h
    rw [List.length_drop]
    omega
  item_append c h := by
    obtain ⟨hsize, hlength, rfl, rfl⟩ := nextFrame_eq_item h
    have hheader := Nat.le_trans (Nat.le_add_right 4 _) hlength
    have htake : (_ ++ c).take 4 = _ := List.take_append_of_le_length hheader
    rw [nextFrame_of_complete (by rwa [htake]) (by rw [htake, List.length_append]; omega), htake,
      List.drop_append_of_le_length hheader, List.drop_append_of_le_length hlength,
      List.take_append_of_le_length (by rw [List.length_drop]; omega)]
  reject_append c h := by
    obtain ⟨hlength, hsize, rfl⟩ := nextFrame_eq_reject h
    have htake : (_ ++ c).take 4 = _ := List.take_append_of_le_length hlength
    rw [← htake] at hsize ⊢
    exact nextFrame_of_tooLarge (by rw [List.length_append]; omega) hsize

theorem next_of_short {b : List UInt8} (h : b.length < 4) : (frameParser ε).next b = .wait :=
  nextFrame_of_short h

theorem extract_eq (buf : List UInt8) (start size : ℕ) :
    buf.extract start (start + size) = (buf.drop start).take size := by
  rw [List.extract_eq_take_drop, Nat.add_sub_cancel_left]

section Loop

variable {buf : List UInt8} {offset : ℕ} (frames : List (List UInt8))

/-- The loop ends where the parser waits. -/
theorem extractFrames_of_wait (h : nextFrame (buf.drop offset) = (.wait : Next _ _ (ReadError ε))) :
    extractFrames buf offset frames = (.ok (frames, offset) : Except (ReadError ε) _) := by
  have hlength : (buf.drop offset).length = buf.length - offset := List.length_drop
  rw [extractFrames, extract_eq]
  by_cases hheader : offset + 4 ≤ buf.length
  · rcases Nat.lt_or_ge maxMessageSize (readU32 ((buf.drop offset).take 4)) with hsize | hsize
    · rw [nextFrame_of_tooLarge (by omega) hsize] at h
      cases h
    rw [if_pos hheader, if_neg (Nat.not_lt.mpr hsize), if_pos]
    by_contra hcomplete
    rw [nextFrame_of_complete hsize (by omega)] at h
    cases h
  · rw [if_neg hheader]

theorem extractFrames_of_reject {e : ReadError ε} (h : nextFrame (buf.drop offset) = .reject e) :
    extractFrames buf offset frames = .error e := by
  obtain ⟨hheader, hsize, rfl⟩ := nextFrame_eq_reject h
  rw [List.length_drop] at hheader
  rw [extractFrames, extract_eq, if_pos (by omega), if_pos hsize]

theorem extractFrames_of_item {a r : List UInt8}
    (h : nextFrame (buf.drop offset) = (.item a r : Next _ _ (ReadError ε))) :
    ∃ offset', buf.drop offset' = r ∧ extractFrames buf offset frames =
      (extractFrames buf offset' (frames ++ [a]) : Except (ReadError ε) _) := by
  obtain ⟨hsize, hlength, rfl, rfl⟩ := nextFrame_eq_item h
  refine ⟨offset + 4 + readU32 ((buf.drop offset).take 4), ?_, ?_⟩
  · rw [List.drop_drop, Nat.add_assoc]
  · rw [List.length_drop] at hlength
    rw [extractFrames, extract_eq, if_pos (by omega), if_neg (Nat.not_lt.mpr hsize),
      if_neg (by omega)]
    simp only [extract_eq, List.drop_drop]

/-- The loop takes the items of the buffer from the offset on. -/
theorem extractFrames_of_items_ok {as : List (List UInt8)} {r : List UInt8}
    (h : (frameParser ε).items (buf.drop offset) = (as, .ok r)) :
    ∃ offset', buf.drop offset' = r ∧
      extractFrames buf offset frames = (.ok (frames ++ as, offset') : Except (ReadError ε) _) := by
  generalize hb : buf.drop offset = b at h
  induction b using (frameParser ε).items_induction generalizing offset frames as with
  | wait b hwait =>
    rw [Parser.items_of_wait hwait] at h
    obtain ⟨rfl, hr⟩ := Prod.mk.inj h
    refine ⟨offset, hb.trans (Except.ok.inj hr), ?_⟩
    rw [extractFrames_of_wait frames (hb ▸ hwait), List.append_nil]
  | item a b r' hitem ih =>
    rw [Parser.items_of_item hitem] at h
    obtain ⟨rfl, hr⟩ := Prod.mk.inj h
    obtain ⟨offset₁, hdrop, hstep⟩ := extractFrames_of_item frames (hb ▸ hitem)
    obtain ⟨offset', hrest, hframes⟩ := ih (frames ++ [a]) hdrop (Prod.ext rfl hr)
    refine ⟨offset', hrest, ?_⟩
    rw [hstep, hframes, List.append_assoc, List.singleton_append]
  | reject e b hreject =>
    rw [Parser.items_of_reject hreject] at h
    cases (Prod.mk.inj h).2

theorem extractFrames_of_items_error {as : List (List UInt8)} {e : ReadError ε}
    (h : (frameParser ε).items (buf.drop offset) = (as, .error e)) :
    extractFrames buf offset frames = .error e := by
  generalize hb : buf.drop offset = b at h
  induction b using (frameParser ε).items_induction generalizing offset frames as with
  | wait b hwait =>
    rw [Parser.items_of_wait hwait] at h
    cases (Prod.mk.inj h).2
  | item a b r hitem ih =>
    rw [Parser.items_of_item hitem] at h
    obtain ⟨offset₁, hdrop, hstep⟩ := extractFrames_of_item frames (hb ▸ hitem)
    rw [hstep, ih (frames ++ [a]) hdrop (Prod.ext rfl (Prod.mk.inj h).2)]
  | reject e' b hreject =>
    rw [Parser.items_of_reject hreject] at h
    rw [extractFrames_of_reject frames (hb ▸ hreject), Except.error.inj (Prod.mk.inj h).2]

end Loop

/-- The reader takes the items of the chunks. -/
theorem handleReadStream_eq (buf : List UInt8) {reads : List (List UInt8)}
    (hreads : ∀ bytes ∈ reads, bytes ≠ []) :
    handleReadStream buf (reads.map .ok) = (frameParser ε).read buf reads := by
  induction reads generalizing buf with
  | nil => rfl
  | cons bytes reads ih =>
    rw [List.forall_mem_cons] at hreads
    have hempty : bytes.isEmpty = false := by simpa using hreads.1
    rw [List.map_cons, handleReadStream, hempty, Parser.read]
    cases h : (frameParser ε).items (buf ++ bytes) with
    | mk as result =>
      rw [← List.drop_zero (l := buf ++ bytes)] at h
      cases result with
      | ok r =>
        obtain ⟨offset, rfl, hframes⟩ := extractFrames_of_items_ok [] h
        simp only [hframes, ih _ hreads.2]
        rfl
      | error e =>
        simp only [extractFrames_of_items_error [] h]
        rfl

/-! ## Round trip -/

theorem length_toBeBytes (n : ℕ) : (toBeBytes n).length = 4 := rfl

section Frames

variable {payloads : List (List UInt8)} (hsize : ∀ p ∈ payloads, p.length ≤ maxMessageSize)

theorem nextFrame_frame {payload : List UInt8} (h : payload.length ≤ maxMessageSize)
    (b : List UInt8) :
    nextFrame (frame payload ++ b) = (.item payload b : Next _ _ (ReadError ε)) := by
  have hlt : payload.length < 2 ^ 32 := Nat.lt_of_le_of_lt h (by decide)
  have hsplit : frame payload ++ b = toBeBytes payload.length ++ (payload ++ b) := by
    rw [frame, Nat.mod_eq_of_lt hlt, List.append_assoc]
  have hheader : (frame payload ++ b).take 4 = toBeBytes payload.length := by
    rw [hsplit]
    exact List.take_left' (length_toBeBytes _)
  have hbody : (frame payload ++ b).drop 4 = payload ++ b := by
    rw [hsplit]
    exact List.drop_left' (length_toBeBytes _)
  have hread : readU32 ((frame payload ++ b).take 4) = payload.length := by
    rw [hheader, readU32_toBeBytes hlt]
  rw [nextFrame_of_complete (hread ▸ h), hread, ← List.drop_drop, hbody, List.take_left,
    List.drop_left]
  rw [hread, hsplit, List.length_append, length_toBeBytes, List.length_append]
  omega

include hsize

/-- The payloads come first, and then the items of what follows. -/
theorem items_frames (c : List UInt8) : (frameParser ε).items (payloads.flatMap frame ++ c) =
    (payloads ++ ((frameParser ε).items c).1, ((frameParser ε).items c).2) := by
  induction payloads with
  | nil => rfl
  | cons payload payloads ih =>
    rw [List.forall_mem_cons] at hsize
    rw [List.flatMap_cons, List.append_assoc]
    have hitem : (frameParser ε).next (frame payload ++ (payloads.flatMap frame ++ c)) =
        .item payload (payloads.flatMap frame ++ c) := nextFrame_frame hsize.1 _
    rw [Parser.items_of_item hitem, ih hsize.2]
    rfl

theorem items_flatMap_frame :
    (frameParser ε).items (payloads.flatMap frame) = (payloads, .ok []) := by
  have hnil : (frameParser ε).items [] = ([], .ok []) :=
    Parser.items_of_wait (next_of_short (by decide))
  have h := items_frames hsize (ε := ε) []
  rwa [hnil, List.append_nil, List.append_nil] at h

end Frames

theorem flatten_handleWriteStream {ω : Type} (serialize : ω → List UInt8)
    {batches : List (List ω)} (h : ∀ buffer ∈ batches, buffer ≠ []) :
    (handleWriteStream serialize batches).flatten =
      (batches.flatten.map serialize).flatMap frame := by
  induction batches with
  | nil => rfl
  | cons buffer batches ih =>
    rw [List.forall_mem_cons] at h
    have hempty : buffer.isEmpty = false := by simpa using h.1
    rw [handleWriteStream, hempty, if_neg Bool.false_ne_true, List.flatten_cons, ih h.2,
      List.flatten_cons, List.map_append, List.flatMap_append, List.flatMap_map, List.flatMap_map]

/-- Whatever messages are sent, however they are grouped in writes and the stream is cut in reads,
the frames are the serialized messages in their order, and nothing is left in the buffer. -/
theorem framing_round_trip {ω : Type} (serialize : ω → List UInt8) {messages : List ω}
    (hsize : ∀ m ∈ messages, (serialize m).length ≤ maxMessageSize) (R : RecvMany messages)
    {reads : List (List UInt8)} (hreads : ∀ bytes ∈ reads, bytes ≠ [])
    (hstream : reads.flatten = (handleWriteStream serialize R.batches).flatten) :
    (handleReadStream [] (reads.map (Except.ok : _ → Except ε _))).1.flatten =
        messages.map serialize ∧
      (handleReadStream [] (reads.map (Except.ok : _ → Except ε _))).2 = .ok [] := by
  have hitems : (frameParser ε).items ([] ++ reads.flatten) = (messages.map serialize, .ok []) := by
    rw [List.nil_append, hstream, flatten_handleWriteStream serialize R.ne_nil, R.flatten]
    exact items_flatMap_frame (List.forall_mem_map.mpr hsize)
  rw [handleReadStream_eq [] hreads]
  exact Parser.read_of_ok (next_of_short (by decide)) hitems

/-- Two messages in one write, and reads that end in a length and in a message. -/
theorem framing_round_trip_two_messages :
    let reads : List (List UInt8) := [[0, 0], [0, 1, 7, 0, 0, 0, 2, 8], [9]]
    (handleReadStream [] (reads.map (Except.ok : _ → Except Unit _))).1.flatten = [[7], [8, 9]] ∧
      (handleReadStream [] (reads.map (Except.ok : _ → Except Unit _))).2 = .ok [] := by
  intro reads
  let messages : List (List UInt8) := [[7], [8, 9]]
  let R : RecvMany messages := ⟨[messages], rfl, by decide, by decide⟩
  have hsize : ∀ m ∈ messages, (id m).length ≤ maxMessageSize := by decide
  have hreads : ∀ bytes ∈ reads, bytes ≠ [] := by decide
  exact framing_round_trip id hsize R hreads (by decide)

/-! ## A length that is too large -/

section Oversize

variable {payloads : List (List UInt8)} (hsize : ∀ p ∈ payloads, p.length ≤ maxMessageSize)
  {header : List UInt8} (hheader : header.length = 4)
  (hover : maxMessageSize < readU32 header)
include hsize

include hheader hover in
theorem items_of_oversize (rest : List UInt8) :
    (frameParser ε).items (payloads.flatMap frame ++ (header ++ rest)) =
      (payloads, .error (frameTooLarge (readU32 header))) := by
  have htake : (header ++ rest).take 4 = header := List.take_left' hheader
  have hreject : (frameParser ε).next (header ++ rest) =
      .reject (frameTooLarge (readU32 ((header ++ rest).take 4))) :=
    nextFrame_of_tooLarge (by rw [List.length_append]; omega) (by rwa [htake])
  rw [items_frames hsize, Parser.items_of_reject hreject, List.append_nil, htake]

include hheader hover in
/-- The part of the stream that has all frames and is not rejected. -/
theorem items_take_iff (rest : List UInt8) (n : ℕ) :
    (∃ r, (frameParser ε).items ((payloads.flatMap frame ++ (header ++ rest)).take n) =
        (payloads, .ok r)) ↔
      (payloads.flatMap frame).length ≤ n ∧ n < (payloads.flatMap frame).length + 4 := by
  have hitems := items_flatMap_frame (ε := ε) hsize
  have hframes (c : List UInt8) := items_frames (ε := ε) hsize c
  have hoversize (c : List UInt8) := items_of_oversize (ε := ε) hsize hheader hover c
  generalize payloads.flatMap frame = stream at hitems hframes hoversize ⊢
  constructor
  · rintro ⟨r, hr⟩
    have hlo : stream.length ≤ n := by
      by_contra hlt
      rw [List.take_append_of_le_length (by omega)] at hr
      rw [← List.take_append_drop n stream] at hitems
      have hdrop := Parser.rest_of_items_append hr hitems
      have hnil := (List.append_eq_nil_iff.mp hdrop.symm).2
      rw [List.drop_eq_nil_iff] at hnil
      exact hlt hnil
    refine ⟨hlo, ?_⟩
    by_contra hlt
    have htake : (stream ++ (header ++ rest)).take n =
        stream ++ (header ++ rest.take (n - stream.length - 4)) := by
      rw [List.take_append, List.take_of_length_le hlo, List.take_append,
        List.take_of_length_le (by omega), hheader]
    rw [htake, hoversize] at hr
    cases (Prod.mk.inj hr).2
  · rintro ⟨hlo, hlt⟩
    have hshort : ((header ++ rest).take (n - stream.length)).length < 4 := by
      rw [List.length_take]
      omega
    rw [List.take_append, List.take_of_length_le hlo, hframes,
      Parser.items_of_wait (next_of_short hshort), List.append_nil]
    exact ⟨_, rfl⟩

end Oversize

/-- All frames before a length that is too large are handed on, before the error is returned, if
and only if a read ends after the last of them and before the length is complete. -/
theorem frames_before_oversize_iff {payloads : List (List UInt8)}
    (hsize : ∀ p ∈ payloads, p.length ≤ maxMessageSize) {header : List UInt8}
    (hheader : header.length = 4) (hover : maxMessageSize < readU32 header) (rest : List UInt8)
    {reads : List (List UInt8)} (hreads : ∀ bytes ∈ reads, bytes ≠ [])
    (hstream : reads.flatten = payloads.flatMap frame ++ (header ++ rest)) :
    ((handleReadStream [] (reads.map (Except.ok : _ → Except ε _))).1.flatten = payloads ∧
        (handleReadStream [] (reads.map (Except.ok : _ → Except ε _))).2 =
          .error (frameTooLarge (readU32 header))) ↔
      ∃ k, (payloads.flatMap frame).length ≤ (reads.take k).flatten.length ∧
        (reads.take k).flatten.length < (payloads.flatMap frame).length + 4 := by
  have hitems : (frameParser ε).items ([] ++ reads.flatten) =
      (payloads, .error (frameTooLarge (readU32 header))) := by
    rw [List.nil_append, hstream]
    exact items_of_oversize hsize hheader hover rest
  have hwait : (frameParser ε).next [] = .wait := next_of_short (by decide)
  rw [handleReadStream_eq [] hreads, and_iff_left (Parser.read_of_error hwait hitems).1,
    Parser.read_all_iff hwait hitems]
  refine exists_congr fun k => ?_
  have htake : [] ++ (reads.take k).flatten =
      (payloads.flatMap frame ++ (header ++ rest)).take (reads.take k).flatten.length := by
    have hflatten : reads.flatten = (reads.take k).flatten ++ (reads.drop k).flatten := by
      rw [← List.flatten_append, List.take_append_drop]
    rw [← hstream, hflatten, List.take_left, List.nil_append]
  rw [htake]
  exact items_take_iff hsize hheader hover rest _

/-- A frame and the length in two reads : the frame is handed on. -/
theorem frames_before_oversize_two_reads :
    let reads : List (List UInt8) := [[0, 0, 0, 1, 7], [255, 255, 255, 255]]
    ((handleReadStream [] (reads.map (Except.ok : _ → Except Unit _))).1.flatten = [[7]] ∧
        (handleReadStream [] (reads.map (Except.ok : _ → Except Unit _))).2 =
          .error (frameTooLarge 4294967295)) ↔
      ∃ k, 5 ≤ (reads.take k).flatten.length ∧ (reads.take k).flatten.length < 9 := by
  intro reads
  have hover : maxMessageSize < readU32 [255, 255, 255, 255] := by decide
  exact frames_before_oversize_iff (by decide) rfl hover [] (by decide) (by decide)

/-- The same stream in one read : the frame is lost. -/
theorem frame_lost_before_oversize :
    let stream : List UInt8 := frame [7] ++ [255, 255, 255, 255]
    handleReadStream [] [(.ok stream : Except Unit _)] =
      ([], .error (frameTooLarge 4294967295)) := by
  intro stream
  have hitems : (frameParser Unit).items ([] ++ stream) =
      ([[7]], .error (frameTooLarge 4294967295)) := by
    have hsize : ∀ p ∈ [([7] : List UInt8)], p.length ≤ maxMessageSize := by decide
    have hover : maxMessageSize < readU32 [255, 255, 255, 255] := by decide
    exact items_of_oversize hsize rfl hover []
  have hne : ∀ bytes ∈ [stream], bytes ≠ [] := by decide
  have hread := handleReadStream_eq (ε := Unit) [] hne
  rw [Parser.read, hitems] at hread
  exact hread

end ConnectionWorker

end Remora
