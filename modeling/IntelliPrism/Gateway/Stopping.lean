import IntelliPrism.Gateway.Sse

/-!
# A stream that a plugin stops

A chunk plugin is a call into another machine: what it answers to an event may depend on the events before
it and on the time it took.  Here a chain runs over a state of its own, and the pump over it is the pump of
the source with what happens to an event left open.

* `Outlet.pump_stops` — **once an event stops it, nothing else happens**, however the stream is framed and
  whatever comes behind;
* `LiveProcessor`, `runLive`, `streamedLive` — chains with a state, and the stream over them;
* `streamed_eq_live` — the chains without one are among them;
* `stopped_cleanly` — **a stream stopped by a plugin** is the events before, as the chain left them, and the
  error.
-/

namespace IntelliPrism.Gateway

open IntelliPrism.Lib

/-! ### What stops a pump -/

namespace Outlet

variable {τ : Type*} (out : Outlet τ)

/-- The stream is over with what follows: nothing does, or trailers. -/
def closes (tail : List (Except BoxError Frame)) : Bool :=
  match tail.head? with
  | none => true
  | some (.ok (.trailers _)) => true
  | _ => false

theorem pump_tail_stops {tail : List (Except BoxError Frame)} (hcloses : closes tail = true)
    {pending : Bytes} {t t' : τ} (h : handEach out.event (events.split true pending).1 t = (false, t')) :
    (out.pump tail pending t).2 = t' := by
  obtain ⟨hok, hleft, -⟩ := out.forward_eq true pending t
  rw [h] at hok hleft
  cases tail with
  | nil => rw [pump, hok, if_neg Bool.false_ne_true, hleft]
  | cons first tail =>
    cases first with
    | error error => cases hcloses
    | ok frame =>
      cases frame with
      | data bytes => cases hcloses
      | trailers headers => rw [pump, hok, Bool.not_false, if_pos rfl, hleft]

/-- **Once an event stops it, nothing else happens**: not to the events behind it, not to what has not ended,
not to trailers, and not to whatever else the stream holds, however it is framed. -/
theorem pump_stops {frames : List Bytes} {tail : List (Except BoxError Frame)} {t t' : τ}
    (h : handEach out.event (events.split (closes tail) frames.flatten).1 t = (false, t')) :
    (out.pump (frames.map (fun bytes => .ok (.data bytes)) ++ tail) [] t).2 = t' := by
  rw [out.pump_data frames tail (events.split_nil false), List.nil_append]
  cases hcloses : closes tail with
  | false =>
    rw [hcloses] at h
    rw [h, if_neg Bool.false_ne_true]
  | true =>
    have hsplit := events.split_append frames.flatten [] true
    rw [List.append_nil, List.append_nil] at hsplit
    rw [hcloses, hsplit, handEach_append] at h
    split at h
    · rename_i hgoes
      rw [if_pos hgoes]
      exact out.pump_tail_stops hcloses h
    · rename_i hstops
      rw [if_neg hstops]
      exact congrArg Prod.snd h

end Outlet

/-! ### Chains with a state -/

/-- A plugin that answers to an event by a state it may change: what it has seen, or what the machine it
runs on makes of it. -/
abbrev LiveProcessor (σ : Type*) := Bytes → σ → Except ProcessorError Bytes × σ

/-- `run_chain`. -/
def runLive {σ : Type*} : List (LiveProcessor σ) → LiveProcessor σ
  | [], event, w => (.ok event, w)
  | processor :: chain, event, w =>
    match processor event w with
    | (.ok event, w) => runLive chain event w
    | (.error error, w) => (.error error, w)

section Live

variable {σ : Type*} (chain : List (LiveProcessor σ)) (caller : Caller)

/-- Runs one event through the chain and sends it on. -/
def handLive (event : Bytes) (s : Passed × σ) : Bool × Passed × σ :=
  let passed := { s.1 with handed := s.1.handed ++ [event] }
  match runLive chain event s.2 with
  | (.ok event, w) =>
    let sent := passed.send caller (.ok (.data event))
    (sent.1, sent.2, w)
  | (.error (.refused reason), w) => (false, (passed.send caller (.ok (.data (errorEvent reason)))).2, w)
  | (.error (.failed detail), w) => (false, (passed.send caller (.error (.processor (.failed detail)))).2, w)

/-- What a stream is sent into: the chain, and the caller behind it. -/
def liveOutlet : Outlet (Passed × σ) where
  event := handLive chain caller
  frame frame s :=
    let sent := s.1.send caller frame
    (sent.1, sent.2, s.2)

/-- What passes when a body of these frames is streamed. -/
def streamedLive (frames : List (Except BoxError Frame)) (w : σ) : Passed × σ :=
  ((liveOutlet chain caller).pump frames [] (⟨[], []⟩, w)).2

/-- Events run through the chain one after the other: what it makes of them, if it stops at none. -/
def runEach : List Bytes → σ → Except ProcessorError (List Bytes) × σ
  | [], w => (.ok [], w)
  | event :: rest, w =>
    match runLive chain event w with
    | (.ok event, w) => ((runEach rest w).1.map (event :: ·), (runEach rest w).2)
    | (.error error, w) => (.error error, w)

variable {chain caller}

theorem send_of_reading {handed : List Bytes} {sent : List (Except BoxError Frame)}
    (h : caller sent.length = true) (frame : Except BoxError Frame) :
    Passed.send caller ⟨handed, sent⟩ frame = (true, ⟨handed, sent ++ [frame]⟩) := if_pos h

theorem send_of_gone {handed : List Bytes} {sent : List (Except BoxError Frame)}
    (h : caller sent.length = false) (frame : Except BoxError Frame) :
    Passed.send caller ⟨handed, sent⟩ frame = (false, ⟨handed, sent⟩) := if_neg (by simp [h])

theorem handLive_of_ok {event made : Bytes} {w w' : σ} (h : runLive chain event w = (.ok made, w'))
    (passed : Passed) :
    handLive chain caller event (passed, w)
      = ((Passed.send caller ⟨passed.handed ++ [event], passed.sent⟩ (.ok (.data made))).1,
        (Passed.send caller ⟨passed.handed ++ [event], passed.sent⟩ (.ok (.data made))).2, w') := by
  simp only [handLive, h]

theorem runEach_cons_ok {event : Bytes} {rest processed : List Bytes} {w w' : σ}
    (h : runEach chain (event :: rest) w = (.ok processed, w')) :
    ∃ made tail w₁, runLive chain event w = (.ok made, w₁) ∧ runEach chain rest w₁ = (.ok tail, w') ∧
      processed = made :: tail := by
  unfold runEach at h
  split at h
  · rename_i made w₁ hrun
    cases hrest : runEach chain rest w₁ with
    | mk answer w₂ =>
      rw [hrest] at h
      cases answer with
      | error error => cases h
      | ok tail =>
        cases h
        exact ⟨made, tail, w₁, hrun, hrest, rfl⟩
  · cases h

/-- What the caller is sent of the error a chain stops at: an event for a refusal, and for a failure the end
of the stream. -/
def stopFrame : ProcessorError → Except BoxError Frame
  | .refused reason => .ok (.data (errorEvent reason))
  | .failed detail => .error (.processor (.failed detail))

theorem handLive_of_error {event : Bytes} {error : ProcessorError} {w w' : σ}
    (h : runLive chain event w = (.error error, w')) (passed : Passed) :
    handLive chain caller event (passed, w)
      = (false, (Passed.send caller ⟨passed.handed ++ [event], passed.sent⟩ (stopFrame error)).2, w') := by
  cases error with
  | refused reason => simp only [handLive, h, stopFrame]
  | failed detail => simp only [handLive, h, stopFrame]

/-- What a caller is sent of a stream that stops: what the chain made of the events before, then the error. -/
def stoppedAt (processed : List Bytes) (error : ProcessorError) : List (Except BoxError Frame) :=
  processed.map (fun event => .ok (.data event)) ++ [stopFrame error]

theorem stoppedAt_cons (made : Bytes) (processed : List Bytes) (error : ProcessorError) :
    stoppedAt (made :: processed) error = .ok (.data made) :: stoppedAt processed error := rfl

/-- Events the chain passes, and one it stops at: a caller who reads is sent all of it, and one who goes away
is sent no more than they read. -/
theorem handEach_stops {before processed : List Bytes} {event : Bytes} {error : ProcessorError} {w w₁ w₂ : σ}
    (hpasses : runEach chain before w = (.ok processed, w₁))
    (hstops : runLive chain event w₁ = (.error error, w₂)) (after : List Bytes) (passed : Passed) :
    ∃ s : Passed × σ, handEach (handLive chain caller) (before ++ event :: after) (passed, w) = (false, s) ∧
      s.1.sent <+: passed.sent ++ stoppedAt processed error ∧
      ((∀ i, passed.sent.length ≤ i → i ≤ passed.sent.length + before.length → caller i = true) →
        s = (⟨passed.handed ++ (before ++ [event]), passed.sent ++ stoppedAt processed error⟩, w₂)) := by
  induction before generalizing w processed passed with
  | nil =>
    cases hpasses
    rw [List.nil_append, handEach, handLive_of_error hstops]
    refine ⟨_, rfl, ?_⟩
    cases hreads : caller passed.sent.length with
    | true =>
      rw [send_of_reading hreads]
      exact ⟨List.prefix_rfl, fun _ => rfl⟩
    | false =>
      rw [send_of_gone hreads]
      refine ⟨List.prefix_append _ _, fun hall => ?_⟩
      rw [hall _ (Nat.le_refl _) (Nat.le_add_right _ _)] at hreads
      cases hreads
  | cons first before ih =>
    obtain ⟨made, processed, w', hrun, hrest, rfl⟩ := runEach_cons_ok hpasses
    rw [List.cons_append, handEach, handLive_of_ok hrun]
    cases hreads : caller passed.sent.length with
    | true =>
      obtain ⟨s, hs, hpart, hall⟩ := ih hrest ⟨passed.handed ++ [first], passed.sent ++ [.ok (.data made)]⟩
      rw [send_of_reading hreads, if_pos rfl, hs]
      refine ⟨s, rfl, by simpa [stoppedAt_cons] using hpart, fun hcaller => ?_⟩
      rw [hall ?_]
      · simp [stoppedAt_cons]
      · intro i hlow hhigh
        simp only [List.length_append, List.length_cons, List.length_nil] at hlow hhigh
        exact hcaller i (by omega) (by rw [List.length_cons]; omega)
    | false =>
      rw [send_of_gone hreads, if_neg Bool.false_ne_true]
      refine ⟨_, rfl, List.prefix_append _ _, fun hall => ?_⟩
      rw [hall _ (Nat.le_refl _) (Nat.le_add_right _ _)] at hreads
      cases hreads

/-- **A stream stopped by a plugin stops cleanly.**  However its data is framed and whatever comes behind it,
when the chain passes the events before one and stops at that one, what is sent is what it made of the
events before, then the error, and nothing else, and the chain is handed nothing behind that event; a caller
who goes away before is sent no more than a part of that. -/
theorem stopped_cleanly {frames : List Bytes} {tail : List (Except BoxError Frame)}
    {before after processed : List Bytes} {event : Bytes} {error : ProcessorError} {w w₁ w₂ : σ}
    (hevents : (events.split (Outlet.closes tail) frames.flatten).1 = before ++ event :: after)
    (hpasses : runEach chain before w = (.ok processed, w₁))
    (hstops : runLive chain event w₁ = (.error error, w₂)) :
    (streamedLive chain caller (frames.map (fun bytes => .ok (.data bytes)) ++ tail) w).1.sent
        <+: stoppedAt processed error ∧
      ((∀ i ≤ before.length, caller i = true) →
        streamedLive chain caller (frames.map (fun bytes => .ok (.data bytes)) ++ tail) w
          = (⟨before ++ [event], stoppedAt processed error⟩, w₂)) := by
  obtain ⟨s, hs, hpart, hall⟩ := @handEach_stops σ chain caller _ _ _ _ _ _ _ hpasses hstops after ⟨[], []⟩
  rw [← hevents] at hs
  have hstreamed : streamedLive chain caller (frames.map (fun bytes => .ok (.data bytes)) ++ tail) w = s :=
    (liveOutlet chain caller).pump_stops hs
  rw [hstreamed]
  refine ⟨hpart, fun hreads => ?_⟩
  refine hall fun i _ hi => hreads i ?_
  rw [List.length_nil] at hi
  omega

end Live

/-- A plugin that lets one event through. -/
def lettingOne : LiveProcessor ℕ := fun event seen =>
  if seen = 0 then (.ok event, 1) else (.error (.refused "enough"), seen)

theorem split_two_events :
    (events.split true [97, 10, 10, 98, 10, 10, 99]).1 = [[97, 10, 10], [98, 10, 10]] := by
  have hend : ∀ (first : UInt8) (rest : Bytes), endingAt (first :: 10 :: 10 :: rest) 0 true = .not →
      events.cut (first :: 10 :: 10 :: rest) true = some 3 := by
    intro first rest hnot
    show eventEndFrom _ _ 0 = _
    rw [eventEndFrom_eq _ _ (by simp), hnot]
    show eventEndFrom _ _ 1 = _
    rw [eventEndFrom_eq _ _ (by simp)]
    rfl
  have hlast : events.cut [99] true = none := by
    show eventEndFrom _ _ 0 = _
    rw [eventEndFrom_eq _ _ (by decide)]
    show eventEndFrom _ _ 1 = _
    rw [eventEndFrom, if_neg (by decide)]
  rw [events.split_of_some (hend 97 _ rfl)]
  show _ :: (events.split true [98, 10, 10, 99]).1 = _
  rw [events.split_of_some (hend 98 _ rfl)]
  show _ :: _ :: (events.split true [99]).1 = _
  rw [events.split_of_none hlast]
  rfl

/-- The second of two events is refused: the first went out, and the bytes behind and the trailers do not. -/
theorem stopped_at_second :
    streamedLive [lettingOne] keepsReading
        [.ok (.data [97, 10]), .ok (.data [10, 98, 10]), .ok (.data [10, 99]), .ok (.trailers ⟨[]⟩)] 0
      = (⟨[[97, 10, 10], [98, 10, 10]],
          [.ok (.data [97, 10, 10]), .ok (.data (errorEvent "enough"))]⟩, 1) :=
  (@stopped_cleanly ℕ [lettingOne] keepsReading [[97, 10], [10, 98, 10], [10, 99]] [.ok (.trailers ⟨[]⟩)]
    [[97, 10, 10]] [] [[97, 10, 10]] [98, 10, 10] (.refused "enough") 0 1 1 split_two_events rfl rfl).2
    fun _ _ => rfl

/-! ### Chains without a state -/

/-- A plugin that answers by the event alone. -/
def stateless (processor : BodyProcessor) : LiveProcessor Unit := fun event w => (processor event, w)

theorem runLive_stateless (chain : List BodyProcessor) (event : Bytes) :
    runLive (chain.map stateless) event () = (runChain chain event, ()) := by
  induction chain generalizing event with
  | nil => rfl
  | cons processor chain ih =>
    rw [List.map_cons, runLive, runChain]
    cases h : processor event with
    | error error =>
      simp only [stateless, h]
      rfl
    | ok event =>
      simp only [stateless, h]
      exact ih event

theorem handLive_stateless (chain : List BodyProcessor) (caller : Caller) (event : Bytes) (passed : Passed) :
    handLive (chain.map stateless) caller event (passed, ())
      = ((handOn chain caller event passed).1, (handOn chain caller event passed).2, ()) := by
  unfold handLive handOn
  rw [runLive_stateless]
  cases runChain chain event with
  | ok event => rfl
  | error error => cases error <;> rfl

/-- **The chains without a state are among them**: the pump over one is the pump of the source. -/
theorem streamed_eq_live (chain : List BodyProcessor) (caller : Caller)
    (frames : List (Except BoxError Frame)) :
    streamed chain caller frames = (streamedLive (chain.map stateless) caller frames ()).1 := by
  have hpump := (liveOutlet (chain.map stateless) caller).pump_of (handLive_stateless chain caller)
    (fun _ _ => rfl) frames [] ⟨[], []⟩
  rw [streamedLive, hpump]
  rfl

end IntelliPrism.Gateway
