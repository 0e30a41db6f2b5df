import IntelliPrism.Gateway.Http
import IntelliPrism.Lib.Framing

/-!
# Server sent events, one at a time

A streamed answer is run through a chunk chain event by event.  `pump` reads it frame by frame, keeps
what has not ended yet, and hands every event that has to the chain; two line endings in a row end an
event, each of which may be LF, CRLF or CR, and a CR at the edge of what has arrived may yet be CRLF.

* `endingAt`, `eventEnd`, `forwardEvents`, `flush`, `pump` — the source's functions;
* `events` — `eventEnd` is a `Splitter`: an end it names before the stream is over cannot move;
* `Outlet`, `Outlet.pump` — the pump whatever is done with an event and with a frame, with
  `Outlet.pump_data`: frames of data are their bytes, however they were cut;
* `Outlet.pump_of` — what does with them as the source does pumps as the source does;
* `pump_framing` — **a stream's events and what is sent on do not depend on its frames, and a chain that
  changes nothing sends on what was received**.
-/

namespace IntelliPrism.Gateway

open IntelliPrism.Lib

/-! ### Where an event ends -/

/-- What sits at one position of a buffer, as far as line endings go. -/
inductive Ending where
  | line (length : ℕ)
  | not
  | unknown
  deriving Repr, DecidableEq

/-- The line feed and the carriage return. -/
def lf : UInt8 := 10

def cr : UInt8 := 13

def endingAt (buffer : Bytes) (i : ℕ) (atEnd : Bool) : Ending :=
  match buffer[i]? with
  | none => if atEnd then .not else .unknown
  | some b =>
    if b = lf then .line 1
    else if b = cr then
      match buffer[i + 1]? with
      | none => if atEnd then .line 1 else .unknown
      | some next => if next = lf then .line 2 else .line 1
    else .not

theorem endingAt_line {buffer : Bytes} {i n : ℕ} {atEnd : Bool}
    (h : endingAt buffer i atEnd = .line n) : 0 < n ∧ i + n ≤ buffer.length := by
  unfold endingAt at h
  split at h
  · split at h <;> cases h
  · rename_i b hb
    have hi : i < buffer.length := (List.getElem?_eq_some_iff.mp hb).1
    split at h
    · cases h
      omega
    · split at h
      · split at h
        · split at h
          · cases h
            omega
          · cases h
        · rename_i next hnext
          have hi' : i + 1 < buffer.length := (List.getElem?_eq_some_iff.mp hnext).1
          split at h <;> cases h <;> omega
      · cases h

theorem endingAt_append {buffer : Bytes} {i : ℕ} (h : endingAt buffer i false ≠ .unknown)
    (more : Bytes) (atEnd : Bool) : endingAt (buffer ++ more) i atEnd = endingAt buffer i false := by
  have hget : ∀ {j : ℕ} {b : UInt8}, buffer[j]? = some b → (buffer ++ more)[j]? = some b := by
    intro j b hb
    rw [List.getElem?_append_left (List.getElem?_eq_some_iff.mp hb).1]
    exact hb
  cases hb : buffer[i]? with
  | none => simp [endingAt, hb] at h
  | some b =>
    unfold endingAt at h ⊢
    rw [hb] at h ⊢
    rw [hget hb]
    cases hnext : buffer[i + 1]? with
    | some next => rw [hget hnext]
    | none =>
      -- nothing is known of what follows, so this is not a carriage return
      have hcr : b = lf ∨ b ≠ cr := by
        by_contra hcr
        push Not at hcr
        exact h (by simp [hcr.2, hnext, lf, cr])
      rcases hcr with hlf | hcr
      · simp [hlf]
      · simp [hcr]

/-- The loop of `event_end`, from a position on. -/
def eventEndFrom (buffer : Bytes) (atEnd : Bool) (i : ℕ) : Option ℕ :=
  if i < buffer.length then
    match h : endingAt buffer i atEnd with
    | .line first =>
      match endingAt buffer (i + first) atEnd with
      | .line second => some (i + first + second)
      | .unknown => none
      | .not =>
        have := (endingAt_line h).1
        eventEndFrom buffer atEnd (i + first)
    | .unknown => none
    | .not => eventEndFrom buffer atEnd (i + 1)
  else none
termination_by buffer.length - i

theorem eventEndFrom_eq (buffer : Bytes) (atEnd : Bool) {i : ℕ} (hi : i < buffer.length) :
    eventEndFrom buffer atEnd i =
      match endingAt buffer i atEnd with
      | .line first =>
        match endingAt buffer (i + first) atEnd with
        | .line second => some (i + first + second)
        | .unknown => none
        | .not => eventEndFrom buffer atEnd (i + first)
      | .unknown => none
      | .not => eventEndFrom buffer atEnd (i + 1) := by
  rw [eventEndFrom, if_pos hi]
  split <;> rename_i h <;> simp only [h]

/-- Where the first complete event in a buffer ends, just past the blank line that closes it. -/
def eventEnd (buffer : Bytes) (atEnd : Bool) : Option ℕ := eventEndFrom buffer atEnd 0

theorem eventEndFrom_bounds {buffer : Bytes} {atEnd : Bool} {i n : ℕ}
    (h : eventEndFrom buffer atEnd i = some n) : i < n ∧ n ≤ buffer.length := by
  fun_induction eventEndFrom buffer atEnd i with
  | case1 i hi first hfirst second hsecond =>
    cases h
    have hpos := (endingAt_line hfirst).1
    have hle := (endingAt_line hsecond).2
    omega
  | case2 => cases h
  | case3 i hi first hfirst hnot hpos ih =>
    have := ih h
    omega
  | case4 => cases h
  | case5 i hi hnot ih =>
    have := ih h
    omega
  | case6 => cases h

theorem eventEndFrom_append {buffer : Bytes} {i n : ℕ} (h : eventEndFrom buffer false i = some n)
    (more : Bytes) (atEnd : Bool) : eventEndFrom (buffer ++ more) atEnd i = some n := by
  have hlong : ∀ {j : ℕ}, j < buffer.length → j < (buffer ++ more).length := by
    intro j hj
    rw [List.length_append]
    omega
  have hknown : ∀ {j : ℕ} {ending : Ending}, endingAt buffer j false = ending → ending ≠ .unknown →
      endingAt (buffer ++ more) j atEnd = ending := by
    intro j ending hj hne
    rw [endingAt_append (hj ▸ hne), hj]
  fun_induction eventEndFrom buffer false i with
  | case1 i hi first hfirst second hsecond =>
    rw [eventEndFrom_eq _ _ (hlong hi), hknown hfirst (by simp)]
    simp only [hknown hsecond (by simp)]
    exact h
  | case2 => cases h
  | case3 i hi first hfirst hnot hpos ih =>
    rw [eventEndFrom_eq _ _ (hlong hi), hknown hfirst (by simp)]
    simp only [hknown hnot (by simp)]
    exact ih h
  | case4 => cases h
  | case5 i hi hnot ih =>
    rw [eventEndFrom_eq _ _ (hlong hi), hknown hnot (by simp)]
    exact ih h
  | case6 => cases h

/-- **`event_end` as a splitter.** -/
def events : Splitter UInt8 where
  cut := eventEnd
  pos h := (eventEndFrom_bounds h).1
  le_length h := (eventEndFrom_bounds h).2
  settled h more atEnd := eventEndFrom_append h more atEnd

/-! ### What runs over the events -/

/-- A plugin that rewrites a body, or one event of a streamed one. -/
abbrev BodyProcessor := Bytes → Except ProcessorError Bytes

def runChain : List BodyProcessor → Bytes → Except ProcessorError Bytes
  | [], event => .ok event
  | processor :: chain, event => do
    let event ← processor event
    runChain chain event

/-- The lines of a refusal's reason, whichever of LF, CRLF and CR ends them. -/
def reasonLines : List Char → List (List Char)
  | [] => [[]]
  | '\r' :: '\n' :: rest => [] :: reasonLines rest
  | '\n' :: rest => [] :: reasonLines rest
  | '\r' :: rest => [] :: reasonLines rest
  | c :: rest =>
    match reasonLines rest with
    | [] => [[c]]
    | line :: lines => (c :: line) :: lines

/-- The event that tells a streaming caller a plugin refused. -/
def errorEvent (reason : String) : Bytes :=
  Cache.bytesOf ("event: error\n"
    ++ String.join ((reasonLines reason.toList).map fun line => "data: " ++ String.ofList line ++ "\n")
    ++ "\n")

/-! ### The pump -/

/-- What passed so far: the events the chain was handed, and what was sent on. -/
structure Passed where
  handed : List Bytes
  sent : List (Except BoxError Frame)

/-- The pump's own state: what passed, and what has not ended yet. -/
structure Pumping where
  pending : Bytes
  passed : Passed

/-- Whether the caller is still there when so much has been sent. -/
abbrev Caller := ℕ → Bool

def keepsReading : Caller := fun _ => true

/-- Sends one frame on, reporting whether there was anybody to send it to. -/
def Passed.send (caller : Caller) (passed : Passed) (frame : Except BoxError Frame) : Bool × Passed :=
  if caller passed.sent.length then (true, { passed with sent := passed.sent ++ [frame] })
  else (false, passed)

/-- Runs one event through the chain and sends it on.  False once the stream has to stop. -/
def handOn (chain : List BodyProcessor) (caller : Caller) (event : Bytes) (passed : Passed) :
    Bool × Passed :=
  let passed := { passed with handed := passed.handed ++ [event] }
  match runChain chain event with
  | .ok event => passed.send caller (.ok (.data event))
  | .error (.refused reason) => (false, (passed.send caller (.ok (.data (errorEvent reason)))).2)
  | .error (.failed detail) => (false, (passed.send caller (.error (.processor (.failed detail)))).2)

/-- Sends every complete event through the chain and on.  False once the stream has to stop. -/
def forwardEvents (chain : List BodyProcessor) (caller : Caller) (atEnd : Bool) (p : Pumping) :
    Bool × Pumping :=
  match h : eventEnd p.pending atEnd with
  | none => (true, p)
  | some n =>
    have := events.length_drop_lt h
    let answer := handOn chain caller (p.pending.take n) p.passed
    if answer.1 then forwardEvents chain caller atEnd ⟨p.pending.drop n, answer.2⟩
    else (false, ⟨p.pending.drop n, answer.2⟩)
termination_by p.pending.length
decreasing_by exact this

/-- Sends what is left of an unfinished event on untouched. -/
def flush (caller : Caller) (p : Pumping) : Bool × Pumping :=
  if p.pending = [] then (true, p)
  else
    let answer := p.passed.send caller (.ok (.data p.pending))
    (answer.1, ⟨[], answer.2⟩)

/-- Reads the body frame by frame to its end. -/
def pump (chain : List BodyProcessor) (caller : Caller) :
    List (Except BoxError Frame) → Pumping → Pumping
  | [], p =>
    let forwarded := forwardEvents chain caller true p
    if forwarded.1 then (flush caller forwarded.2).2 else forwarded.2
  | .error error :: _, p => ⟨p.pending, (p.passed.send caller (.error error)).2⟩
  | .ok (.data bytes) :: frames, p =>
    let forwarded := forwardEvents chain caller false ⟨p.pending ++ bytes, p.passed⟩
    if forwarded.1 then pump chain caller frames forwarded.2 else forwarded.2
  | .ok (.trailers headers) :: frames, p =>
    let forwarded := forwardEvents chain caller true p
    if !forwarded.1 then forwarded.2
    else
      let flushed := flush caller forwarded.2
      if !flushed.1 then flushed.2
      else
        let sent := flushed.2.passed.send caller (.ok (.trailers headers))
        if !sent.1 then ⟨flushed.2.pending, sent.2⟩
        else pump chain caller frames ⟨flushed.2.pending, sent.2⟩

/-- What passes when a body of these frames is streamed. -/
def streamed (chain : List BodyProcessor) (caller : Caller) (frames : List (Except BoxError Frame)) :
    Passed :=
  (pump chain caller frames ⟨[], ⟨[], []⟩⟩).passed

/-- The data bytes that were sent on, in order. -/
def Passed.bytes (passed : Passed) : Bytes :=
  passed.sent.flatMap fun
    | .ok (.data bytes) => bytes
    | _ => []

theorem forwardEvents_of_none (chain : List BodyProcessor) (caller : Caller) {atEnd : Bool} {pending : Bytes}
    (h : events.cut pending atEnd = none) (passed : Passed) :
    forwardEvents chain caller atEnd ⟨pending, passed⟩ = (true, ⟨pending, passed⟩) := by
  have hnone : eventEnd pending atEnd = none := h
  rw [forwardEvents]
  split
  · rfl
  · rename_i n hn
    rw [hnone] at hn
    cases hn

theorem forwardEvents_of_some (chain : List BodyProcessor) (caller : Caller) {atEnd : Bool} {pending : Bytes}
    {n : ℕ} (h : events.cut pending atEnd = some n) (passed : Passed) :
    forwardEvents chain caller atEnd ⟨pending, passed⟩
      = if (handOn chain caller (pending.take n) passed).1 then
          forwardEvents chain caller atEnd
            ⟨pending.drop n, (handOn chain caller (pending.take n) passed).2⟩
        else (false, ⟨pending.drop n, (handOn chain caller (pending.take n) passed).2⟩) := by
  have hsome : eventEnd pending atEnd = some n := h
  rw [forwardEvents]
  split
  · rename_i hn
    rw [hsome] at hn
    cases hn
  · rename_i m hm
    rw [hsome] at hm
    cases hm
    rfl

/-! ### The pump over anything -/

/-- What becomes of an event and of a frame, and whether the stream goes on. -/
structure Outlet (τ : Type*) where
  event : Bytes → τ → Bool × τ
  frame : Except BoxError Frame → τ → Bool × τ

namespace Outlet

variable {τ : Type*} (out : Outlet τ)

/-- `forward_events`. -/
def forward (atEnd : Bool) (pending : Bytes) (t : τ) : Bool × Bytes × τ :=
  events.drain out.event atEnd pending t

/-- `flush`. -/
def flush (pending : Bytes) (t : τ) : Bool × Bytes × τ :=
  if pending = [] then (true, pending, t)
  else
    let answer := out.frame (.ok (.data pending)) t
    (answer.1, [], answer.2)

/-- `pump`. -/
def pump : List (Except BoxError Frame) → Bytes → τ → Bytes × τ
  | [], pending, t =>
    let forwarded := out.forward true pending t
    if forwarded.1 then (out.flush forwarded.2.1 forwarded.2.2).2 else forwarded.2
  | .error error :: _, pending, t => (pending, (out.frame (.error error) t).2)
  | .ok (.data bytes) :: frames, pending, t =>
    let forwarded := out.forward false (pending ++ bytes) t
    if forwarded.1 then pump frames forwarded.2.1 forwarded.2.2 else forwarded.2
  | .ok (.trailers headers) :: frames, pending, t =>
    let forwarded := out.forward true pending t
    if !forwarded.1 then forwarded.2
    else
      let flushed := out.flush forwarded.2.1 forwarded.2.2
      if !flushed.1 then flushed.2
      else
        let sent := out.frame (.ok (.trailers headers)) flushed.2.2
        if !sent.1 then (flushed.2.1, sent.2) else pump frames flushed.2.1 sent.2

theorem forward_eq (atEnd : Bool) (pending : Bytes) (t : τ) :
    (out.forward atEnd pending t).1 = (handEach out.event (events.split atEnd pending).1 t).1 ∧
      (out.forward atEnd pending t).2.2 = (handEach out.event (events.split atEnd pending).1 t).2 ∧
      ((out.forward atEnd pending t).1 = true →
        (out.forward atEnd pending t).2.1 = (events.split atEnd pending).2) :=
  events.drain_eq out.event atEnd pending t

/-- Frames of data are their bytes, as long as what is pending before them holds no complete event. -/
theorem pump_data (frames : List Bytes) (rest : List (Except BoxError Frame)) {pending : Bytes}
    (hpending : events.split false pending = ([], pending)) (t : τ) :
    (out.pump (frames.map (fun bytes => .ok (.data bytes)) ++ rest) pending t).2
      = if (handEach out.event (events.split false (pending ++ frames.flatten)).1 t).1 then
          (out.pump rest (events.split false (pending ++ frames.flatten)).2
            (handEach out.event (events.split false (pending ++ frames.flatten)).1 t).2).2
        else (handEach out.event (events.split false (pending ++ frames.flatten)).1 t).2 := by
  induction frames generalizing pending t with
  | nil => simp [hpending, handEach]
  | cons bytes frames ih =>
    obtain ⟨hok, hleft, hkept⟩ := out.forward_eq false (pending ++ bytes) t
    have hsplit := events.split_append (pending ++ bytes) frames.flatten false
    have hrest := events.split_rest (pending ++ bytes) false
    rw [List.append_assoc, ← List.flatten_cons] at hsplit
    rw [List.map_cons, List.cons_append, pump, hsplit, handEach_append, ← hok, ← hleft]
    cases hgoes : (out.forward false (pending ++ bytes) t).1 with
    | true =>
      rw [← hkept hgoes] at hrest ⊢
      exact ih hrest _
    | false => rfl

section Source

variable {chain : List BodyProcessor} {caller : Caller} {f : Passed → τ}
  (hevent : ∀ event passed, out.event event (f passed)
    = ((handOn chain caller event passed).1, f (handOn chain caller event passed).2))
  (hframe : ∀ frame passed, out.frame frame (f passed)
    = ((passed.send caller frame).1, f (passed.send caller frame).2))

include hevent in
theorem forward_of (atEnd : Bool) (pending : Bytes) (passed : Passed) :
    out.forward atEnd pending (f passed)
      = ((forwardEvents chain caller atEnd ⟨pending, passed⟩).1,
        (forwardEvents chain caller atEnd ⟨pending, passed⟩).2.pending,
        f (forwardEvents chain caller atEnd ⟨pending, passed⟩).2.passed) := by
  unfold Outlet.forward
  induction pending using events.split_induction atEnd generalizing passed with
  | hnone pending h => rw [events.drain_of_none _ h, forwardEvents_of_none chain caller h]
  | hsome pending n h ih =>
    rw [events.drain_of_some _ h, forwardEvents_of_some chain caller h, hevent]
    cases (handOn chain caller (pending.take n) passed).1 with
    | true => exact ih _
    | false => rfl

include hframe in
theorem flush_of (pending : Bytes) (passed : Passed) :
    out.flush pending (f passed)
      = ((Gateway.flush caller ⟨pending, passed⟩).1, (Gateway.flush caller ⟨pending, passed⟩).2.pending,
        f (Gateway.flush caller ⟨pending, passed⟩).2.passed) := by
  unfold Outlet.flush Gateway.flush
  split
  · rfl
  · rw [hframe]

include hevent hframe in
/-- **What does with an event and a frame as the source does pumps as the source does.** -/
theorem pump_of (frames : List (Except BoxError Frame)) (pending : Bytes) (passed : Passed) :
    out.pump frames pending (f passed)
      = ((Gateway.pump chain caller frames ⟨pending, passed⟩).pending,
        f (Gateway.pump chain caller frames ⟨pending, passed⟩).passed) := by
  induction frames generalizing pending passed with
  | nil =>
    rw [Outlet.pump, Gateway.pump, out.forward_of hevent]
    cases (forwardEvents chain caller true ⟨pending, passed⟩).1 with
    | true => exact congrArg Prod.snd (out.flush_of hframe _ _)
    | false => rfl
  | cons frame frames ih =>
    cases frame with
    | error error => rw [Outlet.pump, Gateway.pump, hframe]
    | ok frame =>
      cases frame with
      | data bytes =>
        rw [Outlet.pump, Gateway.pump, out.forward_of hevent]
        cases (forwardEvents chain caller false ⟨pending ++ bytes, passed⟩).1 with
        | true => exact ih _ _
        | false => rfl
      | trailers headers =>
        rw [Outlet.pump, Gateway.pump, out.forward_of hevent]
        generalize forwardEvents chain caller true ⟨pending, passed⟩ = forwarded
        obtain ⟨goes, left, passed⟩ := forwarded
        cases goes with
        | false => rfl
        | true =>
          simp only [out.flush_of hframe]
          generalize Gateway.flush caller ⟨left, passed⟩ = flushed
          obtain ⟨goes, left, passed⟩ := flushed
          cases goes with
          | false => rfl
          | true =>
            simp only [Bool.not_true, Bool.false_eq_true, if_false, hframe]
            generalize passed.send caller (.ok (.trailers headers)) = sent
            obtain ⟨goes, passed⟩ := sent
            cases goes with
            | false => rfl
            | true => exact ih left passed

end Source

end Outlet

/-! ### Frames do not matter -/

section Pump

variable (chain : List BodyProcessor) (caller : Caller)

/-- What the source does with an event and with a frame. -/
def sourceOutlet : Outlet Passed := ⟨handOn chain caller, fun frame passed => passed.send caller frame⟩

theorem pump_source (frames : List (Except BoxError Frame)) (pending : Bytes) (passed : Passed) :
    (sourceOutlet chain caller).pump frames pending passed
      = ((pump chain caller frames ⟨pending, passed⟩).pending,
        (pump chain caller frames ⟨pending, passed⟩).passed) :=
  (sourceOutlet chain caller).pump_of (f := id) (fun _ _ => rfl) (fun _ _ => rfl) frames pending passed

/-- **`forward_events` hands on the events of what is pending**, and keeps what is left over. -/
theorem forwardEvents_eq (atEnd : Bool) (pending : Bytes) (passed : Passed) :
    (forwardEvents chain caller atEnd ⟨pending, passed⟩).1
        = (handEach (handOn chain caller) (events.split atEnd pending).1 passed).1 ∧
      (forwardEvents chain caller atEnd ⟨pending, passed⟩).2.passed
        = (handEach (handOn chain caller) (events.split atEnd pending).1 passed).2 ∧
      ((forwardEvents chain caller atEnd ⟨pending, passed⟩).1 = true →
        (forwardEvents chain caller atEnd ⟨pending, passed⟩).2.pending
          = (events.split atEnd pending).2) := by
  have hforward := (sourceOutlet chain caller).forward_eq atEnd pending passed
  have hsource := (sourceOutlet chain caller).forward_of (f := id) (fun _ _ => rfl) atEnd pending passed
  rw [show (sourceOutlet chain caller).forward atEnd pending passed = _ from hsource] at hforward
  exact hforward

/-- **Frames of data are their bytes.**  What passes depends on the bytes together, as long as what is
pending before them holds no complete event. -/
theorem pump_data (frames : List Bytes) (rest : List (Except BoxError Frame)) {pending : Bytes}
    (hpending : events.split false pending = ([], pending)) (passed : Passed) :
    (pump chain caller (frames.map (fun bytes => .ok (.data bytes)) ++ rest) ⟨pending, passed⟩).passed
      = if (handEach (handOn chain caller) (events.split false (pending ++ frames.flatten)).1 passed).1 then
          (pump chain caller rest ⟨(events.split false (pending ++ frames.flatten)).2,
            (handEach (handOn chain caller) (events.split false (pending ++ frames.flatten)).1
              passed).2⟩).passed
        else (handEach (handOn chain caller) (events.split false (pending ++ frames.flatten)).1 passed).2 := by
  have hdata := (sourceOutlet chain caller).pump_data frames rest hpending passed
  rw [pump_source, pump_source] at hdata
  exact hdata

/-- A body as it is received: its data in frames, and trailers when there are any. -/
def received (frames : List Bytes) (trailers : Option HeaderMap) : List (Except BoxError Frame) :=
  frames.map (fun bytes => .ok (.data bytes)) ++ trailers.toList.map fun headers => .ok (.trailers headers)

/-- Whatever the caller does, what passes is the same as when all the data comes in one frame. -/
theorem streamed_received (frames : List Bytes) (trailers : Option HeaderMap) :
    streamed chain caller (received frames trailers)
      = streamed chain caller (received [frames.flatten] trailers) := by
  unfold streamed received
  rw [pump_data chain caller frames _ (events.split_nil false),
    pump_data chain caller [frames.flatten] _ (events.split_nil false), List.flatten_singleton]

end Pump

/-! ### A chain that changes nothing -/

/-- Every event comes out of the chain as it went in. -/
def ChangesNothing (chain : List BodyProcessor) : Prop := ∀ event, runChain chain event = .ok event

section Lossless

variable {chain : List BodyProcessor} (hchain : ChangesNothing chain)

theorem send_keepsReading (passed : Passed) (frame : Except BoxError Frame) :
    passed.send keepsReading frame = (true, { passed with sent := passed.sent ++ [frame] }) := if_pos rfl

theorem bytes_send_data (passed : Passed) (bytes : Bytes) :
    (passed.send keepsReading (.ok (.data bytes))).2.bytes = passed.bytes ++ bytes := by
  simp [send_keepsReading, Passed.bytes]

include hchain in
theorem handOn_changesNothing (event : Bytes) (passed : Passed) :
    (handOn chain keepsReading event passed).1 = true ∧
      (handOn chain keepsReading event passed).2.bytes = passed.bytes ++ event := by
  unfold handOn
  rw [hchain event]
  exact ⟨rfl, bytes_send_data _ event⟩

include hchain in
theorem handEach_changesNothing (handed : List Bytes) (passed : Passed) :
    (handEach (handOn chain keepsReading) handed passed).1 = true ∧
      (handEach (handOn chain keepsReading) handed passed).2.bytes = passed.bytes ++ handed.flatten := by
  induction handed generalizing passed with
  | nil => exact ⟨rfl, by rw [handEach, List.flatten_nil, List.append_nil]⟩
  | cons event handed ih =>
    have hone := handOn_changesNothing hchain event passed
    rw [handEach, if_pos hone.1]
    refine ⟨(ih _).1, ?_⟩
    rw [(ih _).2, hone.2, List.flatten_cons, List.append_assoc]

/-- What is pending at the end goes out whole: its last events, and then the rest untouched. -/
theorem bytes_flush (p : Pumping) :
    (flush keepsReading p).1 = true ∧ (flush keepsReading p).2.passed.bytes = p.passed.bytes ++ p.pending := by
  unfold flush
  split
  · rename_i h
    exact ⟨rfl, by rw [h, List.append_nil]⟩
  · exact ⟨rfl, bytes_send_data _ _⟩

include hchain in
theorem bytes_forwardEvents (pending : Bytes) (passed : Passed) :
    (forwardEvents chain keepsReading true ⟨pending, passed⟩).1 = true ∧
      (forwardEvents chain keepsReading true ⟨pending, passed⟩).2.passed.bytes
          ++ (forwardEvents chain keepsReading true ⟨pending, passed⟩).2.pending
        = passed.bytes ++ pending := by
  obtain ⟨hok, hpassed, hkept⟩ := forwardEvents_eq chain keepsReading true pending passed
  have hall := handEach_changesNothing hchain (events.split true pending).1 passed
  have hsent := hok.trans hall.1
  refine ⟨hsent, ?_⟩
  rw [hkept hsent, hpassed, hall.2, List.append_assoc, events.flatten_split]

include hchain in
/-- **Nothing is lost**: with the end of the data, or the trailers that follow it, all of it is out. -/
theorem bytes_pump_end (trailers : Option HeaderMap) (pending : Bytes) (passed : Passed) :
    (pump chain keepsReading (received [] trailers) ⟨pending, passed⟩).passed.bytes
      = passed.bytes ++ pending := by
  have hend : ∀ (pending : Bytes) (passed : Passed),
      (pump chain keepsReading [] ⟨pending, passed⟩).passed.bytes = passed.bytes ++ pending := by
    intro pending passed
    have hforward := bytes_forwardEvents hchain pending passed
    rw [pump, if_pos hforward.1, (bytes_flush _).2, hforward.2]
  cases trailers with
  | none => exact hend pending passed
  | some headers =>
    have hforward := bytes_forwardEvents hchain pending passed
    have hflush := bytes_flush (forwardEvents chain keepsReading true ⟨pending, passed⟩).2
    have hleft : (flush keepsReading (forwardEvents chain keepsReading true ⟨pending, passed⟩).2).2.pending
        = [] := by
      unfold flush
      split
      · assumption
      · rfl
    show (pump chain keepsReading (.ok (.trailers headers) :: []) ⟨pending, passed⟩).passed.bytes = _
    rw [pump]
    simp only [hforward.1, hflush.1, send_keepsReading, Bool.not_true, Bool.false_eq_true, if_false, hend,
      hleft]
    rw [← hforward.2, ← hflush.2]
    simp [Passed.bytes]

end Lossless

/-- **A stream does not depend on its frames.**  For every chain of processors and every way the data of
a body is cut into frames, trailers after it or not, the events the chain is handed and the data that is
sent on to a caller who keeps reading are those of the same data in one frame; and a chain that changes
nothing sends on exactly what was received. -/
theorem pump_framing (chain : List BodyProcessor) (frames : List Bytes) (trailers : Option HeaderMap) :
    (streamed chain keepsReading (received frames trailers)).handed
        = (streamed chain keepsReading (received [frames.flatten] trailers)).handed ∧
      (streamed chain keepsReading (received frames trailers)).bytes
        = (streamed chain keepsReading (received [frames.flatten] trailers)).bytes ∧
      (ChangesNothing chain →
        (streamed chain keepsReading (received frames trailers)).bytes = frames.flatten) := by
  refine ⟨?_, ?_, fun hchain => ?_⟩
  · rw [streamed_received]
  · rw [streamed_received]
  · have hall := handEach_changesNothing hchain (events.split false frames.flatten).1 ⟨[], []⟩
    have hdata := pump_data chain keepsReading frames (received [] trailers) (events.split_nil false)
      ⟨[], []⟩
    rw [List.nil_append, if_pos hall.1] at hdata
    show (pump chain keepsReading (frames.map _ ++ received [] trailers) ⟨[], ⟨[], []⟩⟩).passed.bytes = _
    rw [hdata, bytes_pump_end hchain, hall.2, List.append_assoc, events.flatten_split]
    rfl

/-- A CRLF that two frames share: both events come out whole, as they went in. -/
theorem pump_framing_crlf :
    (streamed [] keepsReading (received [[97, 13], [10, 13], [10, 98]] none)).bytes
      = [97, 13, 10, 13, 10, 98] :=
  (pump_framing [] [[97, 13], [10, 13], [10, 98]] none).2.2 fun _ => rfl

end IntelliPrism.Gateway
