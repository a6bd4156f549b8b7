import Remora.ConnectionWorker
import Remora.Termination
import Remora.WindowedQueue
import Mathlib.Algebra.BigOperators.Ring.Finset

/-!
# Connections to a server

Applications send messages to their workers over bounded channels. Each worker writes what it
receives to its stream, at most `maxBatchSize` messages at once. The worker at the other end reads
any part of the stream that is there, and at most `maxBatchSize` tasks at a time deserialize the
frames of the read and send them on the one channel of the server. It reads again when all of them
are done. A connection may fail, and a peer that is not a worker may write anything.

What the frames of a connection carry, what its streams carry and what is not written yet is a
queue, in this order, and the messages leave it from a window of `maxBatchSize` (`Carries`). So no
message is lost, sent twice or invented, whatever the other peers do, and each passes fewer than
`maxBatchSize` others. A connection that did not fail comes to rest with all of its messages
received (`delivers`).
-/

namespace Remora

open Function ConnectionWorker ChunkedParsing WindowedQueue

/-- The messages of each connection, what `bincode` makes of them, and the capacities of the
channels from the application and to the server. -/
structure Network (ι μ : Type) where
  serialize : μ → List UInt8
  deserialize : List UInt8 → Option μ
  messages : ι → List μ
  outgoingSize : ℕ
  incomingSize : ℕ

namespace Network

variable {ι μ : Type}

/-- A connection : what the application has not sent, the channel to its worker, what is written
and not read, and the worker at the other end, with its buffer and the frames it is not done
with. -/
structure Connection (μ : Type) where
  unsent : List μ
  outgoing : List μ
  stream : List UInt8
  buf : List UInt8
  frames : List (List UInt8)
  isReading : Bool

/-- The connections, what was sent on the channel of the server, and how much of it is received. -/
structure State (ι μ : Type) where
  connection : ι → Connection μ
  incoming : List (ι × μ)
  received : ℕ

inductive Event (ι : Type)
  /-- The application sends a message. -/
  | submit (i : ι)
  /-- The worker receives `n` messages and writes them. -/
  | write (i : ι) (n : ℕ)
  /-- The worker at the other end reads `n` bytes. -/
  | read (i : ι) (n : ℕ)
  /-- It deserializes and forwards the `k`-th of its frames. -/
  | forward (i : ι) (k : ℕ)
  /-- Reading fails. -/
  | fail (i : ι)
  /-- The peer writes something else. -/
  | inject (i : ι) (bytes : List UInt8)
  /-- The server receives a message. -/
  | receive
  deriving DecidableEq

/-- The connection of an event. -/
def Event.connection : Event ι → Option ι
  | submit i | write i _ | read i _ | forward i _ | fail i | inject i _ => some i
  | receive => none

variable (N : Network ι μ)

def State.init : State ι μ where
  connection i := ⟨N.messages i, [], [], [], [], true⟩
  incoming := []
  received := 0

/-- The application sends `m`. -/
def Connection.submit (c : Connection μ) (m : μ) (rest : List μ) : Connection μ :=
  { c with unsent := rest, outgoing := c.outgoing ++ [m] }

/-- The worker receives `n` messages and writes them. -/
def Connection.write (serialize : μ → List UInt8) (c : Connection μ) (n : ℕ) : Connection μ :=
  { c with
    outgoing := c.outgoing.drop n
    stream := c.stream ++ (handleWriteStream serialize [c.outgoing.take n]).flatten }

/-- A round of `handle_read_stream` that reads `n` bytes, up to its frames. -/
def Connection.read (c : Connection μ) (n : ℕ) : Connection μ :=
  let buf := c.buf ++ c.stream.take n
  match extractFrames (ε := Empty) buf 0 [] with
  | .error _ => { c with stream := c.stream.drop n, buf := [], isReading := false }
  | .ok (frames, offset) =>
    { c with stream := c.stream.drop n, buf := buf.drop offset, frames := frames }

/-- The worker is done with the `k`-th of its frames. -/
def Connection.finish (c : Connection μ) (k : ℕ) : Connection μ :=
  { c with frames := c.frames.eraseIdx k }

variable [DecidableEq ι]

namespace State

/-- The state with another connection `i`. -/
def set (s : State ι μ) (i : ι) (c : Connection μ) : State ι μ :=
  { s with connection := update s.connection i c }

/-- What was sent on the channel of the server for a connection. -/
def delivered (s : State ι μ) (i : ι) : List μ :=
  (s.incoming.filter fun x => x.1 = i).map Prod.snd

variable {s : State ι μ} {i j : ι} {c : Connection μ}

@[simp] theorem connection_set : (s.set i c).connection i = c :=
  update_self _ _ _

theorem connection_set_of_ne (h : j ≠ i) : (s.set i c).connection j = s.connection j :=
  update_of_ne h _ _

@[simp] theorem delivered_set : (s.set i c).delivered j = s.delivered j := rfl

end State

def step (s : State ι μ) : Event ι → Option (State ι μ)
  | .submit i =>
    match (s.connection i).unsent with
    | [] => none
    | m :: rest =>
      if (s.connection i).outgoing.length < N.outgoingSize then
        some (s.set i ((s.connection i).submit m rest))
      else none
  | .write i n =>
    if 0 < n ∧ n ≤ maxBatchSize ∧ n ≤ (s.connection i).outgoing.length then
      some (s.set i ((s.connection i).write N.serialize n))
    else none
  | .read i n =>
    if (s.connection i).isReading ∧ (s.connection i).frames = [] ∧ 0 < n ∧
        n ≤ (s.connection i).stream.length then
      some (s.set i ((s.connection i).read n))
    else none
  | .forward i k =>
    if k < maxBatchSize then
      match (s.connection i).frames[k]? with
      | none => none
      | some f =>
        let s' := s.set i ((s.connection i).finish k)
        match N.deserialize f with
        | none => some s'
        | some m =>
          if s.incoming.length - s.received < N.incomingSize then
            some { s' with incoming := s.incoming ++ [(i, m)] }
          else none
    else none
  | .fail i =>
    if (s.connection i).isReading ∧ (s.connection i).frames = [] then
      some (s.set i { s.connection i with buf := [], isReading := false })
    else none
  | .inject i bytes =>
    some (s.set i { s.connection i with stream := (s.connection i).stream ++ bytes })
  | .receive =>
    if s.received < s.incoming.length then some { s with received := s.received + 1 } else none

/-- Every interleaving of the applications, the workers and the peers. -/
def system : Transition.System (State ι μ) (Event ι) where
  init s := s = State.init N
  step := step N

/-! ## Steps -/

/-- What a step does. -/
inductive StepCase (s : State ι μ) : Event ι → State ι μ → Prop
  | submit {i : ι} {m : μ} {rest : List μ} : (s.connection i).unsent = m :: rest →
      (s.connection i).outgoing.length < N.outgoingSize →
      StepCase s (.submit i) (s.set i ((s.connection i).submit m rest))
  | write {i : ι} {n : ℕ} : 0 < n → n ≤ maxBatchSize → n ≤ (s.connection i).outgoing.length →
      StepCase s (.write i n) (s.set i ((s.connection i).write N.serialize n))
  | read {i : ι} {n : ℕ} : (s.connection i).isReading = true → (s.connection i).frames = [] →
      0 < n → n ≤ (s.connection i).stream.length →
      StepCase s (.read i n) (s.set i ((s.connection i).read n))
  | drop {i : ι} {k : ℕ} {f : List UInt8} : k < maxBatchSize →
      (s.connection i).frames[k]? = some f → N.deserialize f = none →
      StepCase s (.forward i k) (s.set i ((s.connection i).finish k))
  | forward {i : ι} {k : ℕ} {f : List UInt8} {m : μ} : k < maxBatchSize →
      (s.connection i).frames[k]? = some f → N.deserialize f = some m →
      s.incoming.length - s.received < N.incomingSize →
      StepCase s (.forward i k)
        { s.set i ((s.connection i).finish k) with incoming := s.incoming ++ [(i, m)] }
  | fail {i : ι} : (s.connection i).isReading = true → (s.connection i).frames = [] →
      StepCase s (.fail i) (s.set i { s.connection i with buf := [], isReading := false })
  | inject {i : ι} {bytes : List UInt8} : StepCase s (.inject i bytes)
      (s.set i { s.connection i with stream := (s.connection i).stream ++ bytes })
  | receive : s.received < s.incoming.length →
      StepCase s .receive { s with received := s.received + 1 }

variable {N} {s s' : State ι μ} {e : Event ι}

theorem step_cases (h : step N s e = some s') : StepCase N s e s' := by
  cases e with
  | submit i =>
    simp only [step] at h
    split at h
    · simp at h
    · rename_i m rest hunsent
      obtain ⟨hroom, h⟩ := Option.ite_none_right_eq_some.mp h
      obtain rfl := Option.some.inj h
      exact .submit hunsent hroom
  | write i n =>
    obtain ⟨⟨hpos, hbatch, hlen⟩, h⟩ := Option.ite_none_right_eq_some.mp h
    obtain rfl := Option.some.inj h
    exact .write hpos hbatch hlen
  | read i n =>
    obtain ⟨⟨hreading, hframes, hpos, hlen⟩, h⟩ := Option.ite_none_right_eq_some.mp h
    obtain rfl := Option.some.inj h
    exact .read hreading hframes hpos hlen
  | forward i k =>
    obtain ⟨hk, h⟩ := Option.ite_none_right_eq_some.mp h
    split at h
    · simp at h
    · rename_i f hf
      split at h
      · rename_i hd
        obtain rfl := Option.some.inj h
        exact .drop hk hf hd
      · rename_i m hd
        obtain ⟨hroom, h⟩ := Option.ite_none_right_eq_some.mp h
        obtain rfl := Option.some.inj h
        exact .forward hk hf hd hroom
  | fail i =>
    obtain ⟨⟨hreading, hframes⟩, h⟩ := Option.ite_none_right_eq_some.mp h
    obtain rfl := Option.some.inj h
    exact .fail hreading hframes
  | inject i bytes =>
    obtain rfl := Option.some.inj h
    exact .inject
  | receive =>
    obtain ⟨hlt, h⟩ := Option.ite_none_right_eq_some.mp h
    obtain rfl := Option.some.inj h
    exact .receive hlt

/-- Only the connection of an event moves. -/
theorem frame {i : ι} (h : step N s e = some s') (hi : e.connection ≠ some i) :
    s'.connection i = s.connection i ∧ s'.delivered i = s.delivered i := by
  cases step_cases h with
  | receive _ => exact ⟨rfl, rfl⟩
  | @forward j k f m _ _ _ _ =>
    have hne : j ≠ i := fun h => hi (congrArg some h)
    exact ⟨State.connection_set_of_ne hne.symm, by simp [State.delivered, hne]⟩
  | _ => exact ⟨State.connection_set_of_ne fun h => hi (congrArg some h.symm), rfl⟩

/-! ## A read -/

section Read

variable {c : Connection μ} {n : ℕ} {as : List (List UInt8)} {r : List UInt8}

theorem Connection.read_of_ok
    (h : (frameParser Empty).items (c.buf ++ c.stream.take n) = (as, .ok r)) :
    c.read n = { c with stream := c.stream.drop n, buf := r, frames := as } := by
  rw [← List.drop_zero (l := c.buf ++ c.stream.take n)] at h
  obtain ⟨offset, rfl, hframes⟩ := extractFrames_of_items_ok [] h
  rw [read, hframes]
  rfl

theorem Connection.read_of_error {e : ReadError Empty}
    (h : (frameParser Empty).items (c.buf ++ c.stream.take n) = (as, .error e)) :
    c.read n = { c with stream := c.stream.drop n, buf := [], isReading := false } := by
  rw [← List.drop_zero (l := c.buf ++ c.stream.take n)] at h
  rw [read, extractFrames_of_items_error [] h]

end Read

/-- Each frame takes four bytes and more. -/
theorem length_items {ε : Type} {b r : List UInt8} {as : List (List UInt8)}
    (h : (frameParser ε).items b = (as, .ok r)) : 4 * as.length + r.length ≤ b.length := by
  induction b using (frameParser ε).items_induction generalizing as with
  | wait b hwait =>
    rw [Parser.items_of_wait hwait] at h
    obtain ⟨rfl, hr⟩ := Prod.mk.inj h
    obtain rfl := Except.ok.inj hr
    simp
  | item a b r' hitem ih =>
    rw [Parser.items_of_item hitem] at h
    obtain ⟨rfl, hr⟩ := Prod.mk.inj h
    obtain ⟨-, hlength, -, rfl⟩ := nextFrame_eq_item hitem
    have hrest : 4 * ((frameParser ε).items (b.drop (4 + readU32 (b.take 4)))).1.length + r.length ≤
        (b.drop (4 + readU32 (b.take 4))).length := ih (Prod.ext rfl hr)
    rw [List.length_drop] at hrest
    rw [List.length_cons]
    omega
  | reject e b hreject =>
    rw [Parser.items_of_reject hreject] at h
    cases (Prod.mk.inj h).2

/-! ## Where the messages are -/

/-- The messages can be read again, and are not too large. -/
def Encodes (N : Network ι μ) (i : ι) : Prop :=
  ∀ m ∈ N.messages i, N.deserialize (N.serialize m) = some m ∧
    (N.serialize m).length ≤ maxMessageSize

/-- The frames are of `framed` and the streams of `streamed`. These, what is in the channel and what
is not sent are what is left of the messages. -/
structure Carries (N : Network ι μ) (s : State ι μ) (i : ι) (framed streamed : List μ) : Prop where
  frames : (s.connection i).frames = framed.map N.serialize
  stream : (s.connection i).isReading = true →
    (frameParser Empty).next (s.connection i).buf = .wait ∧
    (frameParser Empty).items ((s.connection i).buf ++ (s.connection i).stream) =
      (streamed.map N.serialize, .ok [])
  departs : Departs maxBatchSize (N.messages i) (s.delivered i)
    (framed ++ streamed ++ (s.connection i).outgoing ++ (s.connection i).unsent)

namespace Carries

variable {i : ι} {framed streamed : List μ}

theorem init : Carries N (State.init N) i [] [] where
  frames := rfl
  stream _ := by
    have hwait : (frameParser Empty).next [] = .wait := next_of_short (by decide)
    exact ⟨hwait, Parser.items_of_wait hwait⟩
  departs := .start

/-- What is left is among the messages. -/
theorem encodes (h : Carries N s i framed streamed) (hE : N.Encodes i) {m : μ}
    (hm : m ∈ framed ∨ m ∈ streamed ∨ m ∈ (s.connection i).outgoing) :
    N.deserialize (N.serialize m) = some m ∧ (N.serialize m).length ≤ maxMessageSize := by
  refine hE m (h.departs.sublist.subset ?_)
  simp only [List.mem_append]
  tauto

theorem write (h : Carries N s i framed streamed) (hE : N.Encodes i) {n : ℕ}
    (hpos : 0 < n) (hn : n ≤ (s.connection i).outgoing.length) :
    Carries N (s.set i ((s.connection i).write N.serialize n)) i framed
      (streamed ++ (s.connection i).outgoing.take n) := by
  have hne : (s.connection i).outgoing.take n ≠ [] := by
    rw [← List.length_pos_iff, List.length_take]
    omega
  refine ⟨by simpa [Connection.write] using h.frames, fun hreading => ?_, ?_⟩
  · simp only [State.connection_set, Connection.write] at hreading ⊢
    obtain ⟨hwait, hitems⟩ := h.stream hreading
    refine ⟨hwait, ?_⟩
    rw [flatten_handleWriteStream N.serialize (List.forall_mem_singleton.mpr hne),
      List.flatten_singleton, ← List.append_assoc, Parser.items_append hitems, List.nil_append,
      items_flatMap_frame, List.map_append]
    exact List.forall_mem_map.mpr fun m hm =>
      (h.encodes hE (Or.inr (Or.inr (List.mem_of_mem_take hm)))).2
  · have hsplit : framed ++ (streamed ++ (s.connection i).outgoing.take n) ++
        (s.connection i).outgoing.drop n ++ (s.connection i).unsent =
        framed ++ streamed ++ (s.connection i).outgoing ++ (s.connection i).unsent := by
      simp
    simpa only [State.connection_set, State.delivered_set, Connection.write, hsplit]
      using h.departs

/-- A read gets the first messages of the stream, as the frames do not depend on the cut. -/
theorem read (h : Carries N s i framed streamed) (hreading : (s.connection i).isReading = true)
    (hframes : (s.connection i).frames = []) (n : ℕ) :
    ∃ framed' streamed', Carries N (s.set i ((s.connection i).read n)) i framed' streamed' := by
  obtain ⟨-, hitems⟩ := h.stream hreading
  obtain rfl : framed = [] := List.map_eq_nil_iff.mp (h.frames.symm.trans hframes)
  rw [← List.take_append_drop n (s.connection i).stream, ← List.append_assoc] at hitems
  cases hread : (frameParser Empty).items ((s.connection i).buf ++ (s.connection i).stream.take n)
    with
  | mk as result =>
    cases result with
    | error e =>
      rw [Parser.items_append_of_error hread] at hitems
      cases (Prod.mk.inj hitems).2
    | ok r =>
      rw [Parser.items_append hread] at hitems
      obtain ⟨hmap, hrest⟩ := Prod.mk.inj hitems
      obtain ⟨framed', streamed', rfl, hframed, hstreamed⟩ := List.map_eq_append_iff.mp hmap.symm
      refine ⟨framed', streamed', ?_, fun _ => ?_, ?_⟩
      · simp [Connection.read_of_ok hread, hframed]
      · simp only [State.connection_set, Connection.read_of_ok hread]
        exact ⟨Parser.wait_of_items hread, Prod.ext hstreamed.symm hrest⟩
      · simpa [Connection.read_of_ok hread] using h.departs

theorem forward (h : Carries N s i framed streamed) {k : ℕ} {m : μ} (hk : k < maxBatchSize)
    (hm : framed[k]? = some m) :
    Carries N { s.set i ((s.connection i).finish k) with incoming := s.incoming ++ [(i, m)] } i
      (framed.eraseIdx k) streamed := by
  have hlt : k < framed.length := (List.getElem?_eq_some_iff.mp hm).1
  refine ⟨?_, by simpa [State.set, Connection.finish] using h.stream, ?_⟩
  · simp [State.set, Connection.finish, h.frames, List.eraseIdx_map]
  · have hleft := h.departs.eraseIdx hk (a := m) (by
      rw [List.append_assoc, List.append_assoc, List.getElem?_append_left hlt, hm])
    simp only [List.append_assoc, List.eraseIdx_append_of_lt_length hlt] at hleft
    simpa [State.delivered, State.set, Connection.finish] using hleft

/-- What every other step of the connection leaves as it is. -/
theorem of_departs (h : Carries N s i framed streamed) (hs : s'.connection i = s.connection i)
    (hd : s'.delivered i = s.delivered i) : Carries N s' i framed streamed :=
  ⟨hs ▸ h.frames, hs ▸ h.stream, by rw [hs, hd]; exact h.departs⟩

theorem step (h : Carries N s i framed streamed) (hE : N.Encodes i)
    (he : ∀ bytes, e ≠ .inject i bytes) (hs : Network.step N s e = some s') :
    ∃ framed' streamed', Carries N s' i framed' streamed' := by
  by_cases hi : e.connection = some i
  · cases step_cases hs with
    | @submit j m rest hunsent _ =>
      obtain rfl := Option.some.inj hi
      refine ⟨framed, streamed, by simpa [Connection.submit] using h.frames,
        by simpa [Connection.submit] using h.stream, ?_⟩
      simpa [Connection.submit, hunsent] using h.departs
    | write hpos _ hlen =>
      obtain rfl := Option.some.inj hi
      exact ⟨_, _, h.write hE hpos hlen⟩
    | read hreading hframes _ _ =>
      obtain rfl := Option.some.inj hi
      exact h.read hreading hframes _
    | @drop j k f hk hf hnone =>
      obtain rfl := Option.some.inj hi
      rw [h.frames, List.getElem?_map, Option.map_eq_some_iff] at hf
      obtain ⟨m, hm, rfl⟩ := hf
      rw [(h.encodes hE (Or.inl (List.mem_of_getElem? hm))).1] at hnone
      cases hnone
    | @forward j k f m hk hf hsome _ =>
      obtain rfl := Option.some.inj hi
      rw [h.frames, List.getElem?_map, Option.map_eq_some_iff] at hf
      obtain ⟨m', hm, rfl⟩ := hf
      rw [(h.encodes hE (Or.inl (List.mem_of_getElem? hm))).1] at hsome
      obtain rfl := Option.some.inj hsome
      exact ⟨_, _, h.forward hk hm⟩
    | fail _ _ =>
      obtain rfl := Option.some.inj hi
      exact ⟨framed, streamed, by simpa using h.frames, by simp, by simpa using h.departs⟩
    | @inject j bytes =>
      obtain rfl := Option.some.inj hi
      exact absurd rfl (he bytes)
    | receive _ => cases hi
  · obtain ⟨hconn, hdelivered⟩ := frame hs hi
    exact ⟨framed, streamed, h.of_departs hconn hdelivered⟩

/-- Frames of a worker are not rejected. -/
theorem isReading (h : Carries N s i framed streamed) (hreading : (s.connection i).isReading = true)
    (he : e ≠ .fail i) (hs : Network.step N s e = some s') :
    (s'.connection i).isReading = true := by
  by_cases hi : e.connection = some i
  · cases step_cases hs with
    | @read j n _ _ _ _ =>
      obtain rfl := Option.some.inj hi
      obtain ⟨-, hitems⟩ := h.stream hreading
      rw [← List.take_append_drop n (s.connection j).stream, ← List.append_assoc] at hitems
      cases hread : (frameParser Empty).items
          ((s.connection j).buf ++ (s.connection j).stream.take n) with
      | mk as result =>
        cases result with
        | error e =>
          rw [Parser.items_append_of_error hread] at hitems
          cases (Prod.mk.inj hitems).2
        | ok r => simpa [Connection.read_of_ok hread] using hreading
    | fail _ _ =>
      obtain rfl := Option.some.inj hi
      exact absurd rfl he
    | receive _ => cases hi
    | _ =>
      obtain rfl := Option.some.inj hi
      simpa [State.set, Connection.submit, Connection.write, Connection.finish] using hreading
  · rw [(frame hs hi).1]
    exact hreading

end Carries

/-- The peer of a connection writes nothing else. -/
def Honest (i : ι) (_ : State ι μ) (e : Event ι) : Prop :=
  ∀ bytes, e ≠ .inject i bytes

theorem carries_of_reachable {i : ι} (hE : N.Encodes i)
    (h : (system N).ReachableVia (Honest i) s) : ∃ framed streamed, Carries N s i framed streamed :=
  h.invariant (I := fun s => ∃ framed streamed, Carries N s i framed streamed)
    (by rintro _ rfl; exact ⟨[], [], .init⟩) fun _ _ _ _ ⟨_, _, hI⟩ he hs => hI.step hE he hs

/-! ## What is left to do -/

/-- The events of the applications, the workers and the server. -/
def Event.isOwn : Event ι → Bool
  | submit _ | write _ _ | read _ _ | forward _ _ | receive => true
  | fail _ | inject _ _ => false

/-- The bytes that are not read count twice, so that a frame, which is not done with when it is
read, costs no more than its bytes. -/
def Connection.work (serialize : μ → List UInt8) (c : Connection μ) : ℕ :=
  (c.unsent.map fun m => 2 * (ConnectionWorker.frame (serialize m)).length + 2).sum +
    (c.outgoing.map fun m => 2 * (ConnectionWorker.frame (serialize m)).length + 1).sum +
    2 * c.stream.length + c.buf.length + 2 * c.frames.length

section Work

variable {c : Connection μ} {n : ℕ}

theorem work_submit (serialize : μ → List UInt8) {m : μ} {rest : List μ}
    (h : c.unsent = m :: rest) : (c.submit m rest).work serialize + 1 = c.work serialize := by
  simp only [Connection.work, Connection.submit, h, List.map_cons, List.sum_cons,
    List.map_append, List.sum_append, List.map_nil, List.sum_nil]
  omega

theorem work_finish (serialize : μ → List UInt8) {k : ℕ} (h : k < c.frames.length) :
    (c.finish k).work serialize + 2 = c.work serialize := by
  simp only [Connection.work, Connection.finish, List.length_eraseIdx, if_pos h]
  omega

theorem work_write (serialize : μ → List UInt8) (hpos : 0 < n) (hn : n ≤ c.outgoing.length) :
    (c.write serialize n).work serialize < c.work serialize := by
  have hlen : (c.outgoing.take n).length = n := by simpa using hn
  have hne : c.outgoing.take n ≠ [] := by
    rw [← List.length_pos_iff, hlen]
    exact hpos
  have hbytes : ∀ l : List μ,
      (l.map fun m => 2 * (ConnectionWorker.frame (serialize m)).length + 1).sum =
        2 * ((l.map serialize).flatMap ConnectionWorker.frame).length + l.length := by
    intro l
    induction l with
    | nil => rfl
    | cons m l ih =>
      simp only [List.map_cons, List.sum_cons, List.flatMap_cons, List.length_append,
        List.length_cons, ih]
      omega
  have hsplit := congrArg (fun l => (l.map fun m =>
    2 * (ConnectionWorker.frame (serialize m)).length + 1).sum) (List.take_append_drop n c.outgoing)
  simp only [List.map_append, List.sum_append, hbytes (c.outgoing.take n), hlen] at hsplit
  simp only [Connection.work, Connection.write,
    flatten_handleWriteStream serialize (List.forall_mem_singleton.mpr hne),
    List.flatten_singleton, List.length_append]
  omega

theorem work_read (serialize : μ → List UInt8) (hframes : c.frames = []) (hpos : 0 < n)
    (hn : n ≤ c.stream.length) : (c.read n).work serialize < c.work serialize := by
  have htake : (c.stream.take n).length = n := by simpa using hn
  have hdrop : (c.stream.drop n).length = c.stream.length - n := List.length_drop
  cases h : (frameParser Empty).items (c.buf ++ c.stream.take n) with
  | mk as result =>
    cases result with
    | error e =>
      simp only [Connection.read_of_error h, Connection.work, List.length_nil, hdrop]
      omega
    | ok r =>
      have hlen := length_items h
      rw [List.length_append, htake] at hlen
      simp only [Connection.read_of_ok h, Connection.work, hdrop, hframes, List.length_nil]
      omega

end Work

section Finite

variable [Fintype ι]

/-- What the connections have left to do, and the messages the server has not received. -/
def work (N : Network ι μ) (s : State ι μ) : ℕ :=
  ∑ i, (s.connection i).work N.serialize + (s.incoming.length - s.received)

theorem sum_work_set (s : State ι μ) (i : ι) (c : Connection μ) :
    ∑ j, ((s.set i c).connection j).work N.serialize + (s.connection i).work N.serialize =
      ∑ j, (s.connection j).work N.serialize + c.work N.serialize :=
  Potential.sum_update _ _ (Finset.mem_univ i) _

/-- Every step of its own leaves less to do. -/
theorem work_lt (he : e.isOwn = true) (h : step N s e = some s') : work N s' < work N s := by
  have hset := sum_work_set (N := N) s
  have hreceived (c : ι) (d : Connection μ) : (s.set c d).incoming.length - (s.set c d).received =
      s.incoming.length - s.received := rfl
  cases step_cases h with
  | @submit i m rest hunsent _ =>
    have hsum := hset i ((s.connection i).submit m rest)
    have hwork := work_submit N.serialize hunsent
    rw [work, work, hreceived]
    omega
  | @write i n hpos _ hlen =>
    have hsum := hset i ((s.connection i).write N.serialize n)
    have hwork := work_write N.serialize hpos hlen
    rw [work, work, hreceived]
    omega
  | @read i n _ hframes hpos hlen =>
    have hsum := hset i ((s.connection i).read n)
    have hwork := work_read N.serialize hframes hpos hlen
    rw [work, work, hreceived]
    omega
  | @drop i k f _ hf _ =>
    have hsum := hset i ((s.connection i).finish k)
    have hwork := work_finish N.serialize (List.getElem?_eq_some_iff.mp hf).1
    rw [work, work, hreceived]
    omega
  | @forward i k f m _ hf _ _ =>
    have hsum := hset i ((s.connection i).finish k)
    have hwork := work_finish N.serialize (List.getElem?_eq_some_iff.mp hf).1
    simp only [work, List.length_append, List.length_singleton]
    change ∑ j, ((s.set i _).connection j).work N.serialize +
      (s.incoming.length + 1 - s.received) < _
    omega
  | fail _ _ => simp [Event.isOwn] at he
  | inject => simp [Event.isOwn] at he
  | receive hlt =>
    simp only [work]
    omega

/-- No run of the network by itself goes on forever. -/
theorem acc_own (s : State ι μ) : Acc ((system N).Next fun _ e => e.isOwn = true) s :=
  Transition.System.acc_of_decreases Nat.lt_wfRel.wf (I := fun _ => True) (μ := work N)
    (fun _ _ _ _ => trivial) (fun _ _ _ ⟨_, he, hs⟩ => work_lt he hs) trivial

end Finite

/-! ## At rest -/

/-- The server has not received more than was sent to it. -/
theorem received_le (h : (system N).Reachable s) : s.received ≤ s.incoming.length := by
  refine h.invariant (I := fun s => s.received ≤ s.incoming.length) ?_ ?_
  · rintro _ rfl
    exact Nat.le_refl 0
  · intro s e s' _ hI hs
    cases step_cases hs with
    | forward _ _ _ _ =>
      rw [List.length_append]
      exact hI.trans (Nat.le_add_right _ _)
    | receive hlt => exact hlt
    | _ => exact hI

/-- What was sent to the server stays sent, and only the server receives. -/
theorem incoming_of_step (h : step N s e = some s') : s.incoming <+: s'.incoming ∧
    s'.received = s.received + if e = .receive then 1 else 0 := by
  cases step_cases h with
  | forward _ _ _ _ => exact ⟨List.prefix_append _ _, rfl⟩
  | receive _ => exact ⟨List.prefix_rfl, rfl⟩
  | _ => exact ⟨List.prefix_rfl, rfl⟩

/-- Where nothing moves, a connection that has not failed has delivered its messages. -/
theorem perm_of_rest {i : ι} {framed streamed : List μ} (h : Carries N s i framed streamed)
    (hout : 0 < N.outgoingSize) (hin : 0 < N.incomingSize)
    (hrest : ∀ e, e.isOwn = true → step N s e = none)
    (hreading : (s.connection i).isReading = true) : (s.delivered i).Perm (N.messages i) := by
  have hframes : (s.connection i).frames = [] := by
    cases hf : (s.connection i).frames with
    | nil => rfl
    | cons f rest =>
      have hforward := hrest (.forward i 0) rfl
      have hreceive := hrest .receive rfl
      have hroom : s.incoming.length - s.received < N.incomingSize := by
        simp only [step, ite_eq_right_iff, reduceCtorEq, imp_false, not_lt] at hreceive
        omega
      cases hd : N.deserialize f <;> simp [step, hf, hd, hroom, maxBatchSize] at hforward
  have hstream : (s.connection i).stream = [] := by
    have hread := hrest (.read i (s.connection i).stream.length) rfl
    simpa [step, hreading, hframes] using hread
  have houtgoing : (s.connection i).outgoing = [] := by
    have hwrite := hrest (.write i 1) rfl
    by_contra hne
    have hpos := List.length_pos_iff.mpr hne
    simp [step, maxBatchSize, Nat.succ_le_iff, hpos] at hwrite
  have hunsent : (s.connection i).unsent = [] := by
    cases hu : (s.connection i).unsent with
    | nil => rfl
    | cons m rest =>
      have hsubmit := hrest (.submit i) rfl
      simp [step, hu, houtgoing, hout] at hsubmit
  obtain rfl : framed = [] := List.map_eq_nil_iff.mp (h.frames.symm.trans hframes)
  obtain rfl : streamed = [] := by
    obtain ⟨hwait, hitems⟩ := h.stream hreading
    rw [hstream, List.append_nil, Parser.items_of_wait hwait] at hitems
    exact List.map_eq_nil_iff.mp (Prod.mk.inj hitems).1.symm
  simpa [houtgoing, hunsent] using h.departs.perm

/-- What the network does by itself keeps a connection. -/
theorem honest_of_own {i : ι} (hE : N.Encodes i) (hs : (system N).ReachableVia (Honest i) s)
    (h : Relation.ReflTransGen (flip ((system N).Next fun _ e => e.isOwn = true)) s s') :
    (system N).ReachableVia (Honest i) s' ∧
      ((s.connection i).isReading = true → (s'.connection i).isReading = true) := by
  induction h with
  | refl => exact ⟨hs, id⟩
  | tail _ hnext ih =>
    obtain ⟨e, he, hstep⟩ := hnext
    obtain ⟨hs', hreading⟩ := ih
    obtain ⟨framed, streamed, hcarries⟩ := carries_of_reachable hE hs'
    refine ⟨hs'.step (fun bytes => ?_) hstep, fun h => hcarries.isReading (hreading h) ?_ hstep⟩
    all_goals
      rintro rfl
      simp [Event.isOwn] at he

/-- Whatever the other peers write and whichever connections fail, the messages of a peer that
writes nothing else are delivered at most once each, and each of them before fewer than
`maxBatchSize` earlier ones. While nothing comes from outside, the network comes to rest, and if the
connection has not failed before, the server has then received them all. -/
theorem delivers [Fintype ι] (N : Network ι μ) (i : ι) (hE : N.Encodes i)
    (hout : 0 < N.outgoingSize) (hin : 0 < N.incomingSize) (s : State ι μ)
    (hs : (system N).ReachableVia (Honest i) s) :
    (∃ order, InWindow maxBatchSize (N.messages i).length order ∧
      (s.delivered i).map some = order.map ((N.messages i)[·]?)) ∧
    Acc ((system N).Next fun _ e => e.isOwn = true) s ∧
    ((s.connection i).isReading = true → ∀ s',
      Relation.ReflTransGen (flip ((system N).Next fun _ e => e.isOwn = true)) s s' →
        (∀ e, e.isOwn = true → step N s' e = none) →
          s'.received = s'.incoming.length ∧ (s'.delivered i).Perm (N.messages i)) := by
  obtain ⟨framed, streamed, hcarries⟩ := carries_of_reachable hE hs
  refine ⟨hcarries.departs.exists_inWindow, acc_own s, fun hreading s' hsteps hrest => ?_⟩
  obtain ⟨hs', hreading'⟩ := honest_of_own hE hs hsteps
  obtain ⟨framed', streamed', hcarries'⟩ := carries_of_reachable hE hs'
  refine ⟨?_, perm_of_rest hcarries' hout hin hrest (hreading' hreading)⟩
  have hreceive := hrest .receive rfl
  simp only [step, ite_eq_right_iff, reduceCtorEq, imp_false, not_lt] at hreceive
  exact (received_le (hs'.mono fun _ _ _ => trivial)).antisymm hreceive

/-- Two peers, each with two messages. -/
def twoPeers : Network (Fin 2) UInt8 where
  serialize m := [m]
  deserialize f := f.head?
  messages _ := [7, 8]
  outgoingSize := 1
  incomingSize := 1

/-- Peer `1` writes a length that is too large. The messages of peer `0` are received. -/
theorem delivers_two_peers : ∃ s s' : State (Fin 2) UInt8, (system twoPeers).Steps s s' ∧
    (s.connection 1).stream = [255, 255, 255, 255] ∧ s'.received = s'.incoming.length ∧
    (s'.delivered 0).Perm [7, 8] := by
  let s : State (Fin 2) UInt8 := (State.init twoPeers).set 1
    { (State.init twoPeers).connection 1 with stream := [255, 255, 255, 255] }
  have hE : twoPeers.Encodes 0 := fun m _ => ⟨rfl, by simp [twoPeers, maxMessageSize]⟩
  have hs : (system twoPeers).ReachableVia (Honest 0) s := by
    refine .step (.init rfl) (e := .inject 1 [255, 255, 255, 255]) (fun bytes => ?_) rfl
    simp
  obtain ⟨-, hacc, hall⟩ := delivers twoPeers 0 hE (by decide) (by decide) s hs
  obtain ⟨s', hsteps, hrest⟩ := Transition.System.exists_rest hacc
  obtain ⟨hreceived, hperm⟩ := hall rfl s' hsteps hrest
  exact ⟨s, s', Transition.System.steps_of_next hsteps, rfl, hreceived, hperm⟩

/-! ## All connections -/

/-- Without failures and other peers every connection is kept. -/
theorem carries_of_own {i : ι} (hE : N.Encodes i)
    (hs : (system N).ReachableVia (fun _ e => e.isOwn = true) s) :
    (s.connection i).isReading = true ∧ ∃ framed streamed, Carries N s i framed streamed := by
  refine hs.invariant (I := fun s => (s.connection i).isReading = true ∧
    ∃ framed streamed, Carries N s i framed streamed) ?_ ?_
  · rintro _ rfl
    exact ⟨rfl, [], [], .init⟩
  · rintro s e s' _ ⟨hreading, framed, streamed, h⟩ he hstep
    refine ⟨h.isReading hreading ?_ hstep, h.step hE (fun bytes => ?_) hstep⟩
    all_goals
      rintro rfl
      simp [Event.isOwn] at he

section All

variable [Fintype ι]

/-- The messages of all connections. -/
def workload (N : Network ι μ) : Multiset μ :=
  ∑ i, (N.messages i : Multiset μ)

/-- What was sent on the channel of the server was delivered by the connections. -/
theorem coe_incoming (s : State ι μ) :
    ((s.incoming.map Prod.snd : List μ) : Multiset μ) = ∑ i, (s.delivered i : Multiset μ) := by
  simp only [State.delivered]
  induction s.incoming with
  | nil => simp
  | cons x l ih =>
    have hcons : ∀ i, ((((x :: l).filter fun y => y.1 = i).map Prod.snd : List μ) : Multiset μ) =
        (if x.1 = i then {x.2} else 0) + ((l.filter fun y => y.1 = i).map Prod.snd : List μ) := by
      intro i
      split_ifs with h <;> simp [h]
    simp only [hcons, Finset.sum_add_distrib, Finset.sum_ite_eq, Finset.mem_univ, if_true, ← ih]
    simp

variable (hE : ∀ i, N.Encodes i) (hs : (system N).ReachableVia (fun _ e => e.isOwn = true) s)
include hE hs

/-- Nothing else is delivered. -/
theorem incoming_le : ((s.incoming.map Prod.snd : List μ) : Multiset μ) ≤ N.workload := by
  rw [coe_incoming]
  refine Finset.sum_le_sum fun i _ => ?_
  obtain ⟨-, framed, streamed, h⟩ := carries_of_own (hE i) hs
  exact (List.sublist_append_left _ _).subperm.trans h.departs.perm.subperm

/-- Where nothing moves, everything is delivered. -/
theorem incoming_of_rest (hout : 0 < N.outgoingSize) (hin : 0 < N.incomingSize)
    (hrest : ∀ e, e.isOwn = true → step N s e = none) :
    ((s.incoming.map Prod.snd : List μ) : Multiset μ) = N.workload := by
  rw [coe_incoming]
  refine Finset.sum_congr rfl fun i _ => ?_
  obtain ⟨hreading, framed, streamed, h⟩ := carries_of_own (hE i) hs
  exact Multiset.coe_eq_coe.mpr (perm_of_rest h hout hin hrest hreading)

end All

end Network

end Remora
