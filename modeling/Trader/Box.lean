import Mathlib.Data.List.Forall2
import Trader.Worker
import Trader.Monitor

set_option autoImplicit false

/-!
# A box, its worker and the screen

The order-book box and the trade box are built alike: a queue that other
threads put messages on, a worker that polls it and hands each message over
to an object, and the UI thread, which copies the object to draw it. The
object is behind a lock, which the worker holds for a message and the UI
thread for a copy.

The threads meet in a client of the object (`boxClient`), whose steps are
those of `poll_queue` as it is written, with its two tests of the stop
token, and whose calls go to the object behind its lock (`box`). A redraw is
asked for after a message, and by a handler that does so also while it holds
the lock. The same client on an object whose operations are indivisible
(`boxSpec`) simulates it, so what someone watching a box can see of it
(`Seen`) is settled there:

* each thread's messages are taken in the order it put them on the queue,
  none twice and none passed over;
* what is drawn is the object after the first `k` messages taken, for a `k`
  that never decreases, counts every message for which any redraw was asked
  before the drawing began, and none that was not yet taken;
* a worker that ends, ends because it was asked to stop or because the
  handler threw on the last message taken; and
* it takes at most one message more once it has been asked to stop.
-/

namespace Ui

open Fix EarlyExit Transition

/-- The threads that meet at the object of a box. -/
inductive BoxThread where
  | worker
  | ui
  deriving DecidableEq

/-- What they call on it. -/
inductive BoxOp (M : Type) where
  | handle (msg : M)
  | copy

/-- What that returns. -/
inductive BoxReply (ε ρ : Type) where
  | handled (r : Except ε Unit)
  | copied (r : ρ)

/-- What can be seen of a box that its own threads do. -/
inductive BoxAct (M ε ρ : Type) where
  /-- `try_dequeue` gives the worker a message of thread `c`. -/
  | dequeued (c : ℕ) (msg : M)
  /-- The handler calls `screen_.post_event`, holding the lock. -/
  | postedInside
  /-- The worker calls `screen_.post_event` in `poll_queue`, when the handler
  has returned. -/
  | posted
  /-- The destructor of the box asks the worker to stop. -/
  | stopRequested
  /-- `poll_queue` returns. -/
  | returned
  /-- `poll_queue` catches an exception and keeps it in `thread_exception`. -/
  | threw (e : ε)
  /-- The UI thread begins to draw the box, -/
  | drawing
  /-- and has drawn what it copied. -/
  | drawn (r : ρ)

/-- What can be seen of a box. -/
inductive BoxEvent (M ε ρ : Type) where
  /-- Thread `c` puts a message on the queue. -/
  | enqueued (c : ℕ) (msg : M)
  | own (act : BoxAct M ε ρ)

/-- Where the worker stands in `poll_queue`. -/
inductive PollPlace (M ε : Type) where
  /-- At `while (!stoken.stop_requested())`. -/
  | loop
  /-- At `while (!queue_.try_dequeue(msg))`. -/
  | dequeue
  /-- At `if (stoken.stop_requested())`, with no message. -/
  | missed
  /-- With a message. -/
  | taken (msg : M)
  /-- In the handler. -/
  | handling
  /-- At `screen_.post_event`. -/
  | handled
  /-- In the `catch`. -/
  | caught (e : ε)
  /-- Past the loop. -/
  | returned
  /-- Past the `catch`. -/
  | failed

/-- Where the UI thread stands in drawing the box. -/
inductive DrawPlace (ρ : Type) where
  | elsewhere
  /-- At the copy of the object. -/
  | drawing
  /-- In the copy. -/
  | copying
  /-- With its copy. -/
  | copied (r : ρ)

/-- **The threads of a box.** Of the queue only this is known: what one
thread put on it comes off it in order, and an attempt to take a message may
fail. -/
structure BoxClient (M ε ρ : Type) where
  /-- What thread `c` has put on the queue and no one taken off. -/
  backlog : ℕ → List M
  stopRequested : Bool
  worker : PollPlace M ε
  backoff : Backoff
  ui : DrawPlace ρ

variable {M ε ρ σ : Type}

/-- A box as it is constructed, its worker started. -/
def BoxClient.init : BoxClient M ε ρ := ⟨fun _ => [], false, .loop, .initial, .elsewhere⟩

/-- **The steps of the threads of a box.** -/
inductive BoxStep : BoxClient M ε ρ →
    Option (BoxEvent M ε ρ ⊕ Monitor.Call BoxThread (BoxOp M) (BoxReply ε ρ)) →
    BoxClient M ε ρ → Prop
  | enqueue {k : BoxClient M ε ρ} (c : ℕ) (msg : M) :
    BoxStep k (some (.inl (.enqueued c msg)))
      { k with backlog := Function.update k.backlog c (k.backlog c ++ [msg]) }
  | requestStop {k : BoxClient M ε ρ} :
    BoxStep k (some (.inl (.own .stopRequested))) { k with stopRequested := true }
  | loop {k : BoxClient M ε ρ} : k.worker = .loop → k.stopRequested = false →
    BoxStep k none { k with worker := .dequeue }
  | leave {k : BoxClient M ε ρ} : k.worker = .loop → k.stopRequested = true →
    BoxStep k (some (.inl (.own .returned))) { k with worker := .returned }
  | dequeue {k : BoxClient M ε ρ} {c : ℕ} {msg : M} {rest : List M} :
    k.worker = .dequeue → k.backlog c = msg :: rest →
    BoxStep k (some (.inl (.own (.dequeued c msg))))
      { k with backlog := Function.update k.backlog c rest, worker := .taken msg }
  | miss {k : BoxClient M ε ρ} : k.worker = .dequeue → BoxStep k none { k with worker := .missed }
  | backOff {k : BoxClient M ε ρ} : k.worker = .missed → k.stopRequested = false →
    BoxStep k none { k with worker := .dequeue, backoff := k.backoff.next }
  | leaveEmpty {k : BoxClient M ε ρ} : k.worker = .missed → k.stopRequested = true →
    BoxStep k (some (.inl (.own .returned))) { k with worker := .returned }
  | handle {k : BoxClient M ε ρ} {msg : M} : k.worker = .taken msg →
    BoxStep k (some (.inr (.call .worker (.handle msg)))) { k with worker := .handling }
  | told {k : BoxClient M ε ρ} : k.worker = .handling →
    BoxStep k (some (.inr (.told .worker))) k
  | handled {k : BoxClient M ε ρ} : k.worker = .handling →
    BoxStep k (some (.inr (.ret .worker (.handled (.ok ()))))) { k with worker := .handled }
  | threw {k : BoxClient M ε ρ} {e : ε} : k.worker = .handling →
    BoxStep k (some (.inr (.ret .worker (.handled (.error e))))) { k with worker := .caught e }
  | post {k : BoxClient M ε ρ} : k.worker = .handled →
    BoxStep k (some (.inl (.own .posted))) { k with worker := .loop, backoff := .initial }
  | keepException {k : BoxClient M ε ρ} {e : ε} : k.worker = .caught e →
    BoxStep k (some (.inl (.own (.threw e)))) { k with worker := .failed }
  | draw {k : BoxClient M ε ρ} : k.ui = .elsewhere →
    BoxStep k (some (.inl (.own .drawing))) { k with ui := .drawing }
  | copy {k : BoxClient M ε ρ} : k.ui = .drawing →
    BoxStep k (some (.inr (.call .ui .copy))) { k with ui := .copying }
  | copied {k : BoxClient M ε ρ} {r : ρ} : k.ui = .copying →
    BoxStep k (some (.inr (.ret .ui (.copied r)))) { k with ui := .copied r }
  | drawn {k : BoxClient M ε ρ} {r : ρ} : k.ui = .copied r →
    BoxStep k (some (.inl (.own (.drawn r)))) { k with ui := .elsewhere }

/-- The threads of a box, as a client of its object. -/
def boxClient (M ε ρ : Type) : Machine (BoxClient M ε ρ)
    (BoxEvent M ε ρ ⊕ Monitor.Call BoxThread (BoxOp M) (BoxReply ε ρ)) where
  init k := k = BoxClient.init
  step := BoxStep

/-! ## The object of a box -/

/-- The operations, as the steps they take under the lock. -/
def boxCode (handler : M → Resumption σ (Except ε Unit)) (reader : Resumption σ ρ) :
    BoxOp M → Resumption σ (BoxReply ε ρ)
  | .handle msg => (handler msg).map .handled
  | .copy => reader.map .copied

/-- What can be seen of the calls: what the handler tells are the redraws it
asks for. -/
def boxSee : Monitor.Call BoxThread (BoxOp M) (BoxReply ε ρ) → Option (BoxEvent M ε ρ)
  | .told _ => some (.own .postedInside)
  | _ => none

theorem boxSee_eq_some {x : Monitor.Call BoxThread (BoxOp M) (BoxReply ε ρ)}
    {e : BoxEvent M ε ρ} (h : boxSee x = some e) : (∃ i, x = .told i) ∧ e = .own .postedInside := by
  cases x with
  | told i => exact ⟨⟨i, rfl⟩, (Option.some.inj h).symm⟩
  | call i op => cases h
  | ret i r => cases h

/-- The operations, as what they do. -/
def boxApply (handler : M → EStateM ε σ Unit) (view : σ → ρ) : BoxOp M → σ → BoxReply ε ρ × σ
  | .handle msg, s =>
    (.handled (Resumption.outcome (handler msg) s).1, (Resumption.outcome (handler msg) s).2)
  | .copy, s => (.copied (view s), s)

/-- How often they ask for a redraw: the handler as often as `asks` says of the
object it finds and leaves, a copy never. -/
def boxTells (asks : ℕ → σ → σ → Prop) : BoxOp M → ℕ → σ → σ → Prop
  | .handle _ => asks
  | .copy => Resumption.Silent

/-- **A box**: its threads, on its object behind the lock. -/
def box (handler : M → Resumption σ (Except ε Unit)) (reader : Resumption σ ρ) (s₀ : σ) :
    Machine (BoxClient M ε ρ × Monitor.Locked BoxThread σ (BoxOp M) (BoxReply ε ρ))
      (BoxEvent M ε ρ) :=
  (boxClient M ε ρ).attach (Monitor.locked BoxThread (boxCode handler reader) s₀) boxSee

/-- **What a box is for**: the same threads, on an object that handles a
message and is copied in one go, the redraws it asks for meanwhile coming
after that. -/
def boxSpec (handler : M → EStateM ε σ Unit) (asks : ℕ → σ → σ → Prop) (view : σ → ρ) (s₀ : σ) :
    Machine (BoxClient M ε ρ × Monitor.Atomic BoxThread σ (BoxOp M) (BoxReply ε ρ))
      (BoxEvent M ε ρ) :=
  (boxClient M ε ρ).attach (Monitor.atomic BoxThread (boxApply handler view) (boxTells asks) s₀)
    boxSee

/-- What it takes for code to be that of a box: the handler implements what is
said of it, and the copy is one of the whole object and asks for nothing. -/
structure Codes (handler : M → Resumption σ (Except ε Unit)) (reader : Resumption σ ρ)
    (spec : M → EStateM ε σ Unit) (asks : ℕ → σ → σ → Prop) (view : σ → ρ) : Prop where
  quiet : ∀ s, reader.told s = 0
  handler : ∀ msg, Resumption.Implements asks (handler msg) (spec msg)
  reader : ∀ s, reader.run s = (view s, s)

section Codes

variable {handler : M → Resumption σ (Except ε Unit)} {reader : Resumption σ ρ}
  {spec : M → EStateM ε σ Unit} {asks : ℕ → σ → σ → Prop} {view : σ → ρ}

theorem Codes.run_boxCode (h : Codes handler reader spec asks view) (op : BoxOp M) (s : σ) :
    (boxCode handler reader op).run s = boxApply spec view op s := by
  cases op with
  | handle msg => rw [boxCode, Resumption.run_map, (h.handler msg s).1, boxApply]
  | copy => rw [boxCode, Resumption.run_map, h.reader s, boxApply]

theorem Codes.told_boxCode (h : Codes handler reader spec asks view) (op : BoxOp M) (s : σ) :
    boxTells asks op ((boxCode handler reader op).told s) s (boxApply spec view op s).2 := by
  cases op with
  | handle msg =>
    rw [boxCode, Resumption.told_map]
    exact (h.handler msg s).2
  | copy =>
    rw [boxCode, Resumption.told_map]
    exact h.quiet s

/-- A message that is handled is handled in the box, and one that is thrown on
is thrown on. -/
theorem Codes.run_of_ok (h : Codes handler reader spec asks view) {msg : M} {s s' : σ}
    (hmsg : (spec msg).run s = .ok () s') : (handler msg).run s = (.ok (), s') :=
  (h.handler msg s).1.trans (Resumption.outcome_of_ok hmsg)

theorem Codes.run_of_error (h : Codes handler reader spec asks view) {msg : M} {s s' : σ} {e : ε}
    (hmsg : (spec msg).run s = .error e s') : (handler msg).run s = (.error e, s') :=
  (h.handler msg s).1.trans (Resumption.outcome_of_error hmsg)

/-- **A box does what it is for.** -/
def Codes.refines (h : Codes handler reader spec asks view) (s₀ : σ) :
    Simulation (box handler reader s₀) (boxSpec spec asks view s₀) :=
  Simulation.attach (boxClient M ε ρ) (Monitor.refines h.run_boxCode h.told_boxCode s₀) boxSee

end Codes

/-! ## What is seen of a box -/

/-- One drawing of a box. -/
structure Drawing (ρ : Type) where
  /-- How many redraws had been asked for after a message when it began; those
  a handler asks for while it holds the lock are not among them. -/
  postedBefore : ℕ
  /-- How many messages there were then of which the last had been followed by
  a redraw of either kind. -/
  askedBefore : ℕ
  /-- How many messages had been taken when it was done. -/
  takenBefore : ℕ
  /-- What was drawn. -/
  drawn : ρ

/-- **What someone watching a box has seen of it.** -/
structure Seen (M ε ρ : Type) where
  /-- The messages each thread has put on the queue. -/
  enqueued : ℕ → List M
  /-- The messages taken off it, each with the thread that put it there. -/
  dequeued : List (ℕ × M)
  /-- How many redraws the worker has asked for after a message. -/
  posted : ℕ
  /-- How many messages had been taken when a redraw was last asked for, by the
  handler or after the message. -/
  asked : ℕ
  /-- What these were when the drawing under way began. -/
  postedAtDrawing : ℕ
  askedAtDrawing : ℕ
  drawings : List (Drawing ρ)
  /-- How many messages had been taken when the first stop was requested. -/
  takenAtStop : Option ℕ
  returned : Bool
  threw : Option ε

namespace Seen

/-- Nothing yet. -/
def nothing : Seen M ε ρ := ⟨fun _ => [], [], 0, 0, 0, 0, [], none, false, none⟩

/-- One thing more. -/
def note (w : Seen M ε ρ) : BoxEvent M ε ρ → Seen M ε ρ
  | .enqueued c msg => { w with enqueued := Function.update w.enqueued c (w.enqueued c ++ [msg]) }
  | .own (.dequeued c msg) => { w with dequeued := w.dequeued ++ [(c, msg)] }
  | .own .postedInside => { w with asked := w.dequeued.length }
  | .own .posted => { w with posted := w.posted + 1, asked := w.dequeued.length }
  | .own .stopRequested => { w with takenAtStop := w.takenAtStop.or (some w.dequeued.length) }
  | .own .returned => { w with returned := true }
  | .own (.threw e) => { w with threw := some e }
  | .own .drawing => { w with postedAtDrawing := w.posted, askedAtDrawing := w.asked }
  | .own (.drawn r) =>
    { w with drawings :=
      w.drawings ++ [⟨w.postedAtDrawing, w.askedAtDrawing, w.dequeued.length, r⟩] }

/-- The messages taken off the queue, in order. -/
def taken (w : Seen M ε ρ) : List M := w.dequeued.map Prod.snd

/-- Those of them that thread `c` had put there. -/
def takenFrom (w : Seen M ε ρ) (c : ℕ) : List M :=
  (w.dequeued.filter (fun p => p.1 = c)).map Prod.snd

end Seen

/-- What there is to see along a trace. -/
def seen (t : List (BoxEvent M ε ρ)) : Seen M ε ρ := t.foldl Seen.note .nothing

theorem seen_concat (u : List (BoxEvent M ε ρ)) (e : BoxEvent M ε ρ) :
    seen (u ++ [e]) = (seen u).note e :=
  List.foldl_concat _ _ _ _

/-- A redraw that had been asked for when a drawing began has been asked for. -/
theorem postedBefore_le (u : List (BoxEvent M ε ρ)) :
    (seen u).postedAtDrawing ≤ (seen u).posted
      ∧ ∀ v ∈ (seen u).drawings, v.postedBefore ≤ (seen u).posted := by
  induction u using List.reverseRecOn with
  | nil => exact ⟨Nat.le_refl _, nofun⟩
  | append_singleton u e ih =>
    rw [seen_concat]
    obtain ⟨hat, hall⟩ := ih
    cases e with
    | enqueued c msg => exact ⟨hat, hall⟩
    | own act =>
      cases act with
      | posted => exact ⟨Nat.le_succ_of_le hat, fun v hv => Nat.le_succ_of_le (hall v hv)⟩
      | drawing => exact ⟨Nat.le_refl _, hall⟩
      | drawn r =>
        refine ⟨hat, fun v hv => ?_⟩
        rcases List.mem_append.mp hv with hv | hv
        · exact hall v hv
        · rw [List.mem_singleton.mp hv]
          exact hat
      | _ => exact ⟨hat, hall⟩

/-- The message an event puts on the queue for thread `c`, if it does. -/
def BoxEvent.enqueuedBy (c : ℕ) : BoxEvent M ε ρ → Option M
  | .enqueued c' msg => if c' = c then some msg else none
  | .own _ => none

theorem BoxEvent.enqueuedBy_map (c c' : ℕ) (o : Option M) :
    (o.map (fun msg => (.enqueued c' msg : BoxEvent M ε ρ))).bind (BoxEvent.enqueuedBy c)
      = if c' = c then o else none := by
  cases o with
  | none => exact (ite_self _).symm
  | some msg => rfl

/-- What a thread has put on the queue, read off the trace. -/
theorem enqueued_seen (u : List (BoxEvent M ε ρ)) (c : ℕ) :
    (seen u).enqueued c = u.filterMap (BoxEvent.enqueuedBy c) := by
  induction u using List.reverseRecOn with
  | nil => rfl
  | append_singleton u e ih =>
    rw [List.filterMap_append, ← ih, seen_concat]
    cases e with
    | enqueued c' msg =>
      have hby : BoxEvent.enqueuedBy c (.enqueued c' msg : BoxEvent M ε ρ)
        = if c' = c then some msg else none := rfl
      show Function.update (seen u).enqueued c' _ c = _
      by_cases hc : c' = c
      · subst hc
        rw [Function.update_self, List.filterMap_cons_some (hby.trans (if_pos rfl))]
        rfl
      · rw [Function.update_of_ne (fun h => hc h.symm),
          List.filterMap_cons_none (hby.trans (if_neg hc))]
        exact (List.append_nil _).symm
    | own act => cases act <;> exact (List.append_nil _).symm

/-- Messages handed over one after another, up to the one on which the handler
throws. -/
def handleAll (handler : M → EStateM ε σ Unit) : List M → EStateM ε σ Unit
  | [] => pure ()
  | msg :: msgs => do
    handler msg
    handleAll handler msgs

/-- One message more. -/
theorem outcome_handleAll_concat {handler : M → EStateM ε σ Unit} {pre : List M} {msg : M}
    {s₀ s : σ} (h : Resumption.outcome (handleAll handler pre) s₀ = (.ok (), s)) :
    Resumption.outcome (handleAll handler (pre ++ [msg])) s₀
      = Resumption.outcome (handler msg) s := by
  induction pre generalizing s₀ with
  | nil =>
    obtain ⟨-, rfl⟩ := Prod.mk.inj h
    show Resumption.outcome (handler msg >>= fun _ => pure ()) s₀ = _
    unfold Resumption.outcome
    rw [EStateM.run_bind]
    cases (handler msg).run s₀ with
    | ok u s => rfl
    | error e s => rfl
  | cons first pre ih =>
    have hrun := Resumption.run_of_outcome_ok h
    obtain ⟨u, s₁, hfirst, hrest⟩ := bind_ok_iff.mp hrun
    rw [← ih (Resumption.outcome_of_ok hrest)]
    unfold Resumption.outcome
    rw [List.cons_append, handleAll, EStateM.run_bind, hfirst]

/-- The object after messages. -/
def stateAfter (handler : M → EStateM ε σ Unit) (s₀ : σ) (msgs : List M) : σ :=
  (Resumption.outcome (handleAll handler msgs) s₀).2

/-! ## The queue -/

section Seen

variable {spec : M → EStateM ε σ Unit} {asks : ℕ → σ → σ → Prop} {view : σ → ρ} {s₀ : σ}
  {w : Seen M ε ρ} {k k' : BoxClient M ε ρ}
  {a a' : Monitor.Atomic BoxThread σ (BoxOp M) (BoxReply ε ρ)}

/-- **What a thread puts on the queue is taken off it in order**: it is what
has been taken, followed by what is waiting. -/
def QueueKept (w : Seen M ε ρ) (k : BoxClient M ε ρ) : Prop :=
  ∀ c, w.enqueued c = w.takenFrom c ++ k.backlog c

theorem Seen.takenFrom_note_dequeued (w : Seen M ε ρ) (c c' : ℕ) (msg : M) :
    (w.note (.own (.dequeued c msg))).takenFrom c'
      = w.takenFrom c' ++ if c' = c then [msg] else [] := by
  unfold takenFrom
  show ((w.dequeued ++ [(c, msg)]).filter _).map _ = _
  rw [List.filter_append, List.map_append, List.filter_singleton]
  by_cases h : c' = c
  · have hown : decide ((c, msg).1 = c') = true := decide_eq_true h.symm
    rw [if_pos h, hown]
    rfl
  · have hother : decide ((c, msg).1 = c') = false := decide_eq_false (fun h' => h h'.symm)
    rw [if_neg h, hother]
    rfl

theorem QueueKept.note {e : BoxEvent M ε ρ} (h : QueueKept w k)
    (hstep : BoxStep k (some (.inl e)) k') : QueueKept (w.note e) k' := by
  cases hstep with
  | enqueue c msg =>
    intro c'
    show Function.update w.enqueued c (w.enqueued c ++ [msg]) c'
      = w.takenFrom c' ++ Function.update k.backlog c (k.backlog c ++ [msg]) c'
    by_cases hc : c' = c
    · rw [hc, Function.update_self, Function.update_self, h c, List.append_assoc]
    · rw [Function.update_of_ne hc, Function.update_of_ne hc, h c']
  | @dequeue c msg rest _ hback =>
    intro c'
    rw [Seen.takenFrom_note_dequeued]
    show w.enqueued c' = _ ++ Function.update k.backlog c rest c'
    by_cases hc : c' = c
    · rw [hc, if_pos rfl, Function.update_self, h c, hback, List.append_assoc]
      rfl
    · rw [if_neg hc, Function.update_of_ne hc, List.append_nil, h c']
  | _ => exact h

/-- The steps that are not seen do not touch the queue. -/
theorem BoxStep.backlog_of_unseen {l : Option (BoxEvent M ε ρ ⊕ Monitor.Call BoxThread (BoxOp M)
    (BoxReply ε ρ))} (h : BoxStep k l k') (hl : ∀ e, l ≠ some (.inl e)) :
    k'.backlog = k.backlog ∧ k'.stopRequested = k.stopRequested := by
  cases h with
  | enqueue c msg => exact absurd rfl (hl _)
  | dequeue _ _ => exact absurd rfl (hl _)
  | requestStop => exact absurd rfl (hl _)
  | _ => exact ⟨rfl, rfl⟩

/-- **Induction over runs of a box**, for what only its threads have to do
with: it holds at the start, and is kept by what is seen of them, by what is
not, and by a redraw the handler asks for. -/
theorem observe_client {I : Seen M ε ρ → BoxClient M ε ρ → Prop} {t : List (BoxEvent M ε ρ)}
    (h : (boxSpec spec asks view s₀).Reaches t (k, a)) (hinit : I .nothing .init)
    (hunseen : ∀ {w k k' l}, I w k → BoxStep k l k' → (∀ e, l ≠ some (.inl e)) → I w k')
    (hnote : ∀ {w k k' e}, I w k → BoxStep k (some (.inl e)) k' → I (w.note e) k')
    (hasked : ∀ {w k}, I w k → I (w.note (.own .postedInside)) k) : I (seen t) k := by
  refine h.observe (I := fun w p => I w p.1) ?_ ?_ ?_
  · rintro ⟨k, a⟩ ⟨rfl, -⟩
    exact hinit
  · rintro w p p' hI hstep
    cases hstep with
    | silent hk => exact hunseen hI hk nofun
    | object _ => exact hI
    | joint _ hk _ => exact hunseen hI hk nofun
  · rintro w p e p' hI hstep
    cases hstep with
    | visible hk => exact hnote hI hk
    | joint hsee hk _ =>
      obtain ⟨-, rfl⟩ := boxSee_eq_some hsee
      exact hasked (hunseen hI hk nofun)

theorem queueKept_of_reaches {t : List (BoxEvent M ε ρ)}
    (h : (boxSpec spec asks view s₀).Reaches t (k, a)) : QueueKept (seen t) k := by
  refine observe_client h (fun c => rfl) (fun hkept hk hl c => ?_) (fun hkept hk => hkept.note hk)
    (fun hkept => hkept)
  rw [(hk.backlog_of_unseen hl).1, hkept c]

/-! ## The stop -/

/-- **A stop is heeded**: the worker knows of it, takes one message more at
most, and none if it was polling, and only a stop makes it return. -/
structure StopKept (w : Seen M ε ρ) (k : BoxClient M ε ρ) : Prop where
  flag : k.stopRequested = w.takenAtStop.isSome
  bound : ∀ d, w.takenAtStop = some d → w.dequeued.length ≤ d + 1
  polling : ∀ d, w.takenAtStop = some d → k.worker = .dequeue ∨ k.worker = .missed →
    w.dequeued.length ≤ d
  returned : w.returned = true → w.takenAtStop.isSome = true

/-- A worker that has moved away from the queue, or not moved. -/
theorem StopKept.move (h : StopKept w k) (hflag : k'.stopRequested = k.stopRequested)
    (hplace : k'.worker = k.worker ∨ (k'.worker ≠ .dequeue ∧ k'.worker ≠ .missed)) :
    StopKept w k' := by
  refine { h with flag := hflag.trans h.flag, polling := fun d hd hw => ?_ }
  rcases hplace with heq | ⟨hdeq, hmiss⟩
  · rw [heq] at hw
    exact h.polling d hd hw
  · exact absurd hw (fun hw => hw.elim hdeq hmiss)

/-- While no stop has been requested the worker may go anywhere. -/
theorem StopKept.unstopped (h : StopKept w k) (hk : k.stopRequested = false)
    (hflag : k'.stopRequested = k.stopRequested) : StopKept w k' := by
  have hnone : w.takenAtStop = none := by
    rw [h.flag] at hk
    exact Option.isSome_eq_false_iff.mp hk |> Option.isNone_iff_eq_none.mp
  refine { h with flag := hflag.trans h.flag, polling := fun d hd _ => ?_ }
  rw [hnone] at hd
  cases hd

theorem StopKept.unseen {l : Option (BoxEvent M ε ρ ⊕ Monitor.Call BoxThread (BoxOp M)
    (BoxReply ε ρ))} (h : StopKept w k) (hstep : BoxStep k l k') (hl : ∀ e, l ≠ some (.inl e)) :
    StopKept w k' := by
  have hflag := (hstep.backlog_of_unseen hl).2
  cases hstep with
  | loop _ hstop => exact h.unstopped hstop hflag
  | backOff _ hstop => exact h.unstopped hstop hflag
  | miss hdeq =>
    exact { h with polling := fun d hd _ => h.polling d hd (Or.inl hdeq) }
  | handle _ => exact h.move hflag (Or.inr ⟨nofun, nofun⟩)
  | told _ => exact h
  | handled _ => exact h.move hflag (Or.inr ⟨nofun, nofun⟩)
  | threw _ => exact h.move hflag (Or.inr ⟨nofun, nofun⟩)
  | copy _ => exact h.move hflag (Or.inl rfl)
  | copied _ => exact h.move hflag (Or.inl rfl)
  | _ => exact absurd rfl (hl _)

theorem StopKept.note {e : BoxEvent M ε ρ} (h : StopKept w k)
    (hstep : BoxStep k (some (.inl e)) k') : StopKept (w.note e) k' := by
  cases hstep with
  | requestStop =>
    have hstop : ∀ d, w.takenAtStop.or (some w.dequeued.length) = some d →
        w.takenAtStop = some d ∨ w.dequeued.length = d := by
      intro d hd
      cases hw : w.takenAtStop with
      | none =>
        rw [hw] at hd
        exact Or.inr (Option.some.inj hd)
      | some d' =>
        rw [hw] at hd
        exact Or.inl hd
    refine ⟨?_, fun d hd => ?_, fun d hd hw => ?_, fun _ => ?_⟩
    · show true = (w.takenAtStop.or (some w.dequeued.length)).isSome
      rw [Option.isSome_or, Option.isSome_some, Bool.or_true]
    · rcases hstop d hd with hd | hd
      · exact h.bound d hd
      · exact Nat.le_of_lt (Nat.lt_succ_of_le (Nat.le_of_eq hd))
    · rcases hstop d hd with hd | hd
      · exact h.polling d hd hw
      · exact Nat.le_of_eq hd
    · show (w.takenAtStop.or (some w.dequeued.length)).isSome = true
      rw [Option.isSome_or, Option.isSome_some, Bool.or_true]
  | leave _ hstop =>
    exact ⟨h.flag, h.bound, fun d _ hw => hw.elim nofun nofun, fun _ => h.flag.symm.trans hstop⟩
  | leaveEmpty _ hstop =>
    exact ⟨h.flag, h.bound, fun d _ hw => hw.elim nofun nofun, fun _ => h.flag.symm.trans hstop⟩
  | @dequeue c msg rest hdeq hback =>
    refine ⟨h.flag, fun d hd => ?_, fun d hd hw => hw.elim nofun nofun, h.returned⟩
    have hlen := h.polling d hd (Or.inl hdeq)
    show (w.dequeued ++ [(c, msg)]).length ≤ d + 1
    rw [List.length_append, List.length_singleton]
    exact Nat.succ_le_succ hlen
  | post _ => exact ⟨h.flag, h.bound, fun d _ hw => hw.elim nofun nofun, h.returned⟩
  | keepException _ => exact ⟨h.flag, h.bound, fun d _ hw => hw.elim nofun nofun, h.returned⟩
  | enqueue c msg => exact ⟨h.flag, h.bound, h.polling, h.returned⟩
  | draw _ => exact ⟨h.flag, h.bound, h.polling, h.returned⟩
  | drawn _ => exact ⟨h.flag, h.bound, h.polling, h.returned⟩

theorem stopKept_of_reaches {t : List (BoxEvent M ε ρ)}
    (h : (boxSpec spec asks view s₀).Reaches t (k, a)) : StopKept (seen t) k :=
  observe_client h ⟨rfl, nofun, nofun, nofun⟩ (fun hkept hk hl => hkept.unseen hk hl)
    (fun hkept hk => hkept.note hk)
    (fun hkept => ⟨hkept.flag, hkept.bound, hkept.polling, hkept.returned⟩)

/-- A worker that has returned has nothing more to do. -/
def ReturnedKept (w : Seen M ε ρ) (k : BoxClient M ε ρ) : Prop :=
  w.returned = true → k.worker = .returned

/-- A step from anywhere else says that the worker has not returned. -/
theorem ReturnedKept.of_place (h : ReturnedKept w k) {p : PollPlace M ε} (hp : k.worker = p)
    (hne : p ≠ .returned) : ReturnedKept w k' :=
  fun hr => absurd (hp.symm.trans (h hr)) hne

theorem ReturnedKept.unseen {l : Option (BoxEvent M ε ρ ⊕ Monitor.Call BoxThread (BoxOp M)
    (BoxReply ε ρ))} (h : ReturnedKept w k) (hstep : BoxStep k l k')
    (hl : ∀ e, l ≠ some (.inl e)) : ReturnedKept w k' := by
  cases hstep with
  | loop hp _ => exact h.of_place hp nofun
  | backOff hp _ => exact h.of_place hp nofun
  | miss hp => exact h.of_place hp nofun
  | handle hp => exact h.of_place hp nofun
  | told _ => exact h
  | handled hp => exact h.of_place hp nofun
  | threw hp => exact h.of_place hp nofun
  | copy _ => exact h
  | copied _ => exact h
  | _ => exact absurd rfl (hl _)

theorem ReturnedKept.note {e : BoxEvent M ε ρ} (h : ReturnedKept w k)
    (hstep : BoxStep k (some (.inl e)) k') : ReturnedKept (w.note e) k' := by
  cases hstep with
  | leave _ _ => exact fun _ => rfl
  | leaveEmpty _ _ => exact fun _ => rfl
  | dequeue hp _ => exact h.of_place hp nofun
  | post hp => exact h.of_place hp nofun
  | keepException hp => exact h.of_place hp nofun
  | _ => exact h

theorem returnedKept_of_reaches {t : List (BoxEvent M ε ρ)}
    (h : (boxSpec spec asks view s₀).Reaches t (k, a)) : ReturnedKept (seen t) k :=
  observe_client h nofun (fun hkept hk hl => hkept.unseen hk hl) (fun hkept hk => hkept.note hk)
    (fun hkept => hkept)

/-! ## The worker and the object -/

/-- The worker has a message in hand: it is the last one taken, and those
before it have all been handled, which has made the object `s`. -/
def InHand (spec : M → EStateM ε σ Unit) (s₀ : σ) (taken : List M) (posted : ℕ) (msg : M)
    (s : σ) : Prop :=
  ∃ pre, taken = pre ++ [msg] ∧ posted = pre.length
    ∧ Resumption.outcome (handleAll spec pre) s₀ = (.ok (), s)

/-- **How far the worker has got**: the object is the one after the first `n`
messages taken. -/
def Work (spec : M → EStateM ε σ Unit) (s₀ : σ) (taken : List M) (posted : ℕ)
    (threw : Option ε) (n : ℕ) (status : Monitor.Status (BoxOp M) (BoxReply ε ρ)) (s : σ) :
    PollPlace M ε → Prop
  | .taken msg => status = .idle ∧ threw = none ∧ InHand spec s₀ taken posted msg s ∧ n = posted
  | .handling => threw = none ∧ ∃ msg,
    (status = .called (.handle msg) ∧ InHand spec s₀ taken posted msg s ∧ n = posted)
      ∨ ∃ s' left r, InHand spec s₀ taken posted msg s' ∧ status = .done left (.handled r)
        ∧ Resumption.outcome (spec msg) s' = (r, s) ∧ n = taken.length
  | .handled => status = .idle ∧ threw = none ∧ ∃ msg s', InHand spec s₀ taken posted msg s'
    ∧ Resumption.outcome (spec msg) s' = (.ok (), s) ∧ n = taken.length
  | .caught e => status = .idle ∧ threw = none ∧ ∃ msg s', InHand spec s₀ taken posted msg s'
    ∧ Resumption.outcome (spec msg) s' = (.error e, s) ∧ n = taken.length
  | .failed => status = .idle ∧ ∃ e, threw = some e ∧ ∃ msg s',
    InHand spec s₀ taken posted msg s'
      ∧ Resumption.outcome (spec msg) s' = (.error e, s) ∧ n = taken.length
  | _ => status = .idle ∧ threw = none ∧ posted = taken.length
    ∧ Resumption.outcome (handleAll spec taken) s₀ = (.ok (), s) ∧ n = taken.length

section Work

variable {taken : List M} {posted n : ℕ} {threw : Option ε} {msg : M}
  {status : Monitor.Status (BoxOp M) (BoxReply ε ρ)} {s s' : σ} {p : PollPlace M ε}

theorem InHand.length (h : InHand spec s₀ taken posted msg s) : taken.length = posted + 1 := by
  obtain ⟨pre, rfl, rfl, -⟩ := h
  rw [List.length_append, List.length_singleton]

/-- The object before the message in hand, -/
theorem InHand.before (h : InHand spec s₀ taken posted msg s) :
    s = stateAfter spec s₀ (taken.take posted) := by
  obtain ⟨pre, rfl, rfl, hpre⟩ := h
  rw [List.take_left, stateAfter, hpre]

/-- and what the message makes of it. -/
theorem InHand.after (h : InHand spec s₀ taken posted msg s) {r : Except ε Unit}
    (hmsg : Resumption.outcome (spec msg) s = (r, s')) :
    Resumption.outcome (handleAll spec taken) s₀ = (r, s') := by
  obtain ⟨pre, rfl, rfl, hpre⟩ := h
  rw [outcome_handleAll_concat hpre, hmsg]

/-- **The object is always the one after some of the messages taken**: all
those a redraw was asked for, and perhaps one more. -/
structure Boundary (spec : M → EStateM ε σ Unit) (s₀ : σ) (taken : List M) (posted n : ℕ)
    (s : σ) : Prop where
  posted_le : posted ≤ n
  le_taken : n ≤ taken.length
  state : s = stateAfter spec s₀ (taken.take n)

theorem InHand.boundary_before (h : InHand spec s₀ taken posted msg s) :
    Boundary spec s₀ taken posted posted s :=
  ⟨Nat.le_refl _, by rw [h.length]; exact Nat.le_succ _, h.before⟩

theorem InHand.boundary_after (h : InHand spec s₀ taken posted msg s) {r : Except ε Unit}
    (hmsg : Resumption.outcome (spec msg) s = (r, s')) :
    Boundary spec s₀ taken posted taken.length s' := by
  refine ⟨by rw [h.length]; exact Nat.le_succ _, Nat.le_refl _, ?_⟩
  rw [List.take_length, stateAfter, h.after hmsg]

theorem Work.boundary (h : Work spec s₀ taken posted threw n status s p) :
    Boundary spec s₀ taken posted n s := by
  cases p with
  | taken msg =>
    obtain ⟨-, -, hhand, rfl⟩ := h
    exact hhand.boundary_before
  | handling =>
    obtain ⟨-, msg, ⟨-, hhand, rfl⟩ | ⟨s', left, r, hhand, -, hmsg, rfl⟩⟩ := h
    · exact hhand.boundary_before
    · exact hhand.boundary_after hmsg
  | handled =>
    obtain ⟨-, -, msg, s', hhand, hmsg, rfl⟩ := h
    exact hhand.boundary_after hmsg
  | caught e =>
    obtain ⟨-, -, msg, s', hhand, hmsg, rfl⟩ := h
    exact hhand.boundary_after hmsg
  | failed =>
    obtain ⟨-, e, -, msg, s', hhand, hmsg, rfl⟩ := h
    exact hhand.boundary_after hmsg
  | _ =>
    obtain ⟨-, -, hposted, hall, rfl⟩ := h
    refine ⟨Nat.le_of_eq hposted, Nat.le_refl _, ?_⟩
    rw [List.take_length, stateAfter, hall]

end Work

/-! ## What is drawn -/

/-- A drawing shows the object after the first `j` messages taken: with every
message a redraw had been asked for when it began, by the handler or after it,
and none not yet taken. -/
structure Shows (spec : M → EStateM ε σ Unit) (view : σ → ρ) (s₀ : σ) (taken : List M)
    (v : Drawing ρ) (j : ℕ) : Prop where
  posted_le : v.postedBefore ≤ v.askedBefore
  fresh : v.askedBefore ≤ j
  known : j ≤ v.takenBefore
  taken_le : v.takenBefore ≤ taken.length
  drawn : v.drawn = view (stateAfter spec s₀ (taken.take j))

theorem Shows.postedBefore_le {taken : List M} {v : Drawing ρ} {j : ℕ}
    (h : Shows spec view s₀ taken v j) : v.postedBefore ≤ j :=
  Nat.le_trans h.posted_le h.fresh

theorem Shows.append {taken : List M} {v : Drawing ρ} {j : ℕ}
    (h : Shows spec view s₀ taken v j) (more : List M) :
    Shows spec view s₀ (taken ++ more) v j := by
  refine { h with taken_le := ?_, drawn := ?_ }
  · rw [List.length_append]
    exact Nat.le_trans h.taken_le (Nat.le_add_right _ _)
  · rw [List.take_append_of_le_length (Nat.le_trans h.known h.taken_le)]
    exact h.drawn

/-- A copy that was made since the drawing under way began. -/
def Copied (spec : M → EStateM ε σ Unit) (view : σ → ρ) (s₀ : σ) (taken : List M)
    (askedAtDrawing : ℕ) (ks : List ℕ) (n : ℕ) (r : ρ) : Prop :=
  ∃ j, askedAtDrawing ≤ j ∧ (∀ i ∈ ks, i ≤ j) ∧ j ≤ n
    ∧ r = view (stateAfter spec s₀ (taken.take j))

/-- How far the UI thread has got. -/
def Draws (spec : M → EStateM ε σ Unit) (view : σ → ρ) (s₀ : σ) (taken : List M)
    (asked askedAtDrawing : ℕ) (ks : List ℕ) (n : ℕ)
    (status : Monitor.Status (BoxOp M) (BoxReply ε ρ)) : DrawPlace ρ → Prop
  | .elsewhere => status = .idle
  | .drawing => status = .idle ∧ askedAtDrawing ≤ asked
  | .copying => (status = .called .copy ∧ askedAtDrawing ≤ asked)
    ∨ ∃ r, status = .done 0 (.copied r) ∧ Copied spec view s₀ taken askedAtDrawing ks n r
  | .copied r => status = .idle ∧ Copied spec view s₀ taken askedAtDrawing ks n r

theorem Copied.mono {taken : List M} {askedAtDrawing n n' : ℕ} {ks : List ℕ} {r : ρ}
    (h : Copied spec view s₀ taken askedAtDrawing ks n r) (hn : n ≤ n')
    (htaken : n ≤ taken.length) (more : List M) :
    Copied spec view s₀ (taken ++ more) askedAtDrawing ks n' r := by
  obtain ⟨j, hfresh, hks, hj, hr⟩ := h
  refine ⟨j, hfresh, hks, Nat.le_trans hj hn, ?_⟩
  rw [List.take_append_of_le_length (Nat.le_trans hj htaken)]
  exact hr

/-- What the worker does meanwhile does not spoil a drawing. -/
theorem Draws.mono {taken : List M} {asked asked' askedAtDrawing n n' : ℕ} {ks : List ℕ}
    {status : Monitor.Status (BoxOp M) (BoxReply ε ρ)} {p : DrawPlace ρ}
    (h : Draws spec view s₀ taken asked askedAtDrawing ks n status p)
    (hasked : asked ≤ asked') (hn : n ≤ n') (htaken : n ≤ taken.length) (more : List M) :
    Draws spec view s₀ (taken ++ more) asked' askedAtDrawing ks n' status p := by
  cases p with
  | elsewhere => exact h
  | drawing => exact ⟨h.1, Nat.le_trans h.2 hasked⟩
  | copying =>
    rcases h with ⟨hs, hp⟩ | ⟨r, hs, hr⟩
    · exact Or.inl ⟨hs, Nat.le_trans hp hasked⟩
    · exact Or.inr ⟨r, hs, hr.mono hn htaken more⟩
  | copied r => exact ⟨h.1, h.2.mono hn htaken more⟩

/-- **The redraws asked for**: what has been followed by one is in the
object. -/
structure Announced (w : Seen M ε ρ) (n : ℕ) : Prop where
  posted_le : w.posted ≤ w.asked
  asked_le : w.asked ≤ n
  atDrawing : w.postedAtDrawing ≤ w.askedAtDrawing

/-- **The invariant of a box**: where the worker and the UI thread stand, the
object is the one after the first `n` messages taken, and the drawings so far
show it after `ks` messages. -/
structure BoxInv (spec : M → EStateM ε σ Unit) (view : σ → ρ) (s₀ : σ) (w : Seen M ε ρ)
    (k : BoxClient M ε ρ) (a : Monitor.Atomic BoxThread σ (BoxOp M) (BoxReply ε ρ)) (n : ℕ)
    (ks : List ℕ) : Prop where
  work : Work spec s₀ w.taken w.posted w.threw n (a.status .worker) a.state k.worker
  announced : Announced w n
  draws : Draws spec view s₀ w.taken w.asked w.askedAtDrawing ks n (a.status .ui) k.ui
  shows : List.Forall₂ (Shows spec view s₀ w.taken) w.drawings ks
  sorted : ks.Pairwise (· ≤ ·)
  below : ∀ i ∈ ks, i ≤ n

/-- The worker moves, and the UI thread stays where it is. -/
theorem BoxInv.worker {n n' : ℕ} {ks : List ℕ} {w' : Seen M ε ρ}
    (h : BoxInv spec view s₀ w k a n ks) (more : List M)
    (hwork : Work spec s₀ w'.taken w'.posted w'.threw n' (a'.status .worker) a'.state k'.worker)
    (htaken : w'.taken = w.taken ++ more) (hann : Announced w' n')
    (hle : w.asked ≤ w'.asked ∧ n ≤ n') (hui : k'.ui = k.ui ∧ a'.status .ui = a.status .ui)
    (hdrawings : w'.drawings = w.drawings ∧ w'.askedAtDrawing = w.askedAtDrawing) :
    BoxInv spec view s₀ w' k' a' n' ks := by
  refine ⟨hwork, hann, ?_, ?_, h.sorted, fun i hi => Nat.le_trans (h.below i hi) hle.2⟩
  · rw [hui.1, hui.2, hdrawings.2, htaken]
    exact h.draws.mono hle.1 hle.2 h.work.boundary.le_taken more
  · rw [hdrawings.1, htaken]
    exact h.shows.imp (fun v j hv => hv.append more)

/-- The worker moves, with nothing more taken or asked for. -/
theorem BoxInv.workerOnly {n : ℕ} {ks : List ℕ} {w' : Seen M ε ρ}
    (h : BoxInv spec view s₀ w k a n ks)
    (hwork : Work spec s₀ w.taken w.posted w'.threw n (a'.status .worker) a'.state k'.worker)
    (hseen : w' = { w with enqueued := w'.enqueued, takenAtStop := w'.takenAtStop,
                           returned := w'.returned, threw := w'.threw })
    (hui : k'.ui = k.ui ∧ a'.status .ui = a.status .ui) : BoxInv spec view s₀ w' k' a' n ks := by
  have hnone : w'.taken = w.taken := by rw [hseen]; rfl
  refine h.worker [] ?_ (by rw [hnone, List.append_nil]) ?_ ⟨?_, Nat.le_refl _⟩ hui ?_
  · rw [hnone, hseen]
    exact hwork
  · rw [hseen]
    exact ⟨h.announced.posted_le, h.announced.asked_le, h.announced.atDrawing⟩
  · rw [hseen]
  · rw [hseen]
    exact ⟨rfl, rfl⟩

/-- The UI thread moves, and the worker stays where it is. -/
theorem BoxInv.ui {n : ℕ} {ks ks' : List ℕ} {w' : Seen M ε ρ} (h : BoxInv spec view s₀ w k a n ks)
    (hdraws : Draws spec view s₀ w.taken w.asked w'.askedAtDrawing ks' n (a'.status .ui) k'.ui)
    (hshows : List.Forall₂ (Shows spec view s₀ w.taken) w'.drawings ks')
    (hks : ks'.Pairwise (· ≤ ·) ∧ ∀ i ∈ ks', i ≤ n)
    (hworker : k'.worker = k.worker ∧ a'.status .worker = a.status .worker ∧ a'.state = a.state)
    (hseen : w' = { w with postedAtDrawing := w'.postedAtDrawing,
                           askedAtDrawing := w'.askedAtDrawing, drawings := w'.drawings })
    (hatDrawing : w'.postedAtDrawing ≤ w'.askedAtDrawing) :
    BoxInv spec view s₀ w' k' a' n ks' := by
  obtain ⟨hplace, hstatus, hstate⟩ := hworker
  have htaken : w'.taken = w.taken := by rw [hseen]; rfl
  have hasked : w'.asked = w.asked := by rw [hseen]
  have hposted : w'.posted = w.posted := by rw [hseen]
  have hthrew : w'.threw = w.threw := by rw [hseen]
  refine ⟨?_, ⟨?_, ?_, hatDrawing⟩, ?_, ?_, hks.1, hks.2⟩
  · rw [htaken, hposted, hthrew, hstatus, hstate, hplace]
    exact h.work
  · rw [hposted, hasked]
    exact h.announced.posted_le
  · rw [hasked]
    exact h.announced.asked_le
  · rw [htaken, hasked]
    exact hdraws
  · rw [htaken]
    exact hshows

/-- An operation of the worker that is called and yet to take effect is the
handling of the message in hand. -/
theorem Work.called {taken : List M} {posted n : ℕ} {threw : Option ε} {op : BoxOp M} {s : σ}
    {p : PollPlace M ε}
    (h : Work spec s₀ taken posted threw n
      (.called op : Monitor.Status (BoxOp M) (BoxReply ε ρ)) s p) :
    p = .handling ∧ threw = none ∧ ∃ msg, op = .handle msg ∧ InHand spec s₀ taken posted msg s
      ∧ n = posted := by
  cases p with
  | handling =>
    obtain ⟨hthrew, msg, ⟨hop, hhand, hn⟩ | ⟨s', left, r, -, hop, -⟩⟩ := h
    · exact ⟨rfl, hthrew, msg, Monitor.Status.called.inj hop, hhand, hn⟩
    · cases hop
  | _ => cases h.1

/-- One that has taken effect has handled it. -/
theorem Work.done {taken : List M} {posted n left : ℕ} {threw : Option ε} {reply : BoxReply ε ρ}
    {s : σ} {p : PollPlace M ε}
    (h : Work spec s₀ taken posted threw n
      (.done left reply : Monitor.Status (BoxOp M) (BoxReply ε ρ)) s p) :
    p = .handling ∧ threw = none ∧ ∃ msg s' r, reply = .handled r
      ∧ InHand spec s₀ taken posted msg s' ∧ Resumption.outcome (spec msg) s' = (r, s)
      ∧ n = taken.length := by
  cases p with
  | handling =>
    obtain ⟨hthrew, msg, ⟨hop, -⟩ | ⟨s', left', r, hhand, hop, hmsg, hn⟩⟩ := h
    · cases hop
    · exact ⟨rfl, hthrew, msg, s', r, (Monitor.Status.done.inj hop).2, hhand, hmsg, hn⟩
  | _ => cases h.1

/-- One of the UI thread is the copy, -/
theorem Draws.called {taken : List M} {asked askedAtDrawing n : ℕ} {ks : List ℕ} {op : BoxOp M}
    {p : DrawPlace ρ}
    (h : Draws spec view s₀ taken asked askedAtDrawing ks n
      (.called op : Monitor.Status (BoxOp M) (BoxReply ε ρ)) p) :
    p = .copying ∧ op = .copy ∧ askedAtDrawing ≤ asked := by
  cases p with
  | copying =>
    rcases h with ⟨hop, hasked⟩ | ⟨r, hop, -⟩
    · exact ⟨rfl, Monitor.Status.called.inj hop, hasked⟩
    · cases hop
  | elsewhere => cases h
  | drawing => cases h.1
  | copied r => cases h.1

/-- which asks for nothing. -/
theorem Draws.done {taken : List M} {asked askedAtDrawing n left : ℕ} {ks : List ℕ}
    {reply : BoxReply ε ρ} {p : DrawPlace ρ}
    (h : Draws spec view s₀ taken asked askedAtDrawing ks n
      (.done left reply : Monitor.Status (BoxOp M) (BoxReply ε ρ)) p) :
    p = .copying ∧ left = 0
      ∧ ∃ r, reply = .copied r ∧ Copied spec view s₀ taken askedAtDrawing ks n r := by
  cases p with
  | copying =>
    rcases h with ⟨hop, -⟩ | ⟨r, hop, hr⟩
    · cases hop
    · obtain ⟨rfl, rfl⟩ := Monitor.Status.done.inj hop
      exact ⟨rfl, rfl, r, rfl, hr⟩
  | elsewhere => cases h
  | drawing => cases h.1
  | copied r => cases h.1

/-- A message takes effect: the object moves on to the boundary after it. -/
theorem BoxInv.commit {n left : ℕ} {ks : List ℕ} {i : BoxThread} {op : BoxOp M}
    (h : BoxInv spec view s₀ w k a n ks) (hcalled : a.status i = .called op)
    (htells : boxTells asks op left a.state (boxApply spec view op a.state).2) :
    ∃ n', BoxInv spec view s₀ w k
      (Monitor.Atomic.move { a with state := (boxApply spec view op a.state).2 } i
        (.done left (boxApply spec view op a.state).1)) n' ks := by
  cases i with
  | worker =>
    have hwork := h.work
    rw [hcalled] at hwork
    obtain ⟨hplace, hthrew, msg, rfl, hhand, hn⟩ := hwork.called
    have hle := h.work.boundary.le_taken
    refine ⟨w.taken.length, h.worker [] ?_ (List.append_nil _).symm
      ⟨h.announced.posted_le, Nat.le_trans h.announced.asked_le hle, h.announced.atDrawing⟩
      ⟨Nat.le_refl _, hle⟩ ⟨rfl, Monitor.Atomic.status_move_of_ne _ (by decide) _⟩ ⟨rfl, rfl⟩⟩
    rw [hplace]
    exact ⟨hthrew, msg,
      Or.inr ⟨a.state, left, _, hhand, Monitor.Atomic.status_move_self _ _ _, rfl, rfl⟩⟩
  | ui =>
    have hdraws := h.draws
    rw [hcalled] at hdraws
    obtain ⟨hplace, rfl, hasked⟩ := hdraws.called
    obtain rfl : left = 0 := htells
    refine ⟨n, h.ui ?_ h.shows ⟨h.sorted, h.below⟩
      ⟨rfl, Monitor.Atomic.status_move_of_ne _ (by decide) _, rfl⟩ rfl h.announced.atDrawing⟩
    rw [hplace]
    refine Or.inr ⟨view a.state, Monitor.Atomic.status_move_self _ _ _, n, ?_, h.below,
      Nat.le_refl _, ?_⟩
    · exact Nat.le_trans hasked h.announced.asked_le
    · rw [← h.work.boundary.state]

/-- A call, or a return of one. -/
theorem BoxInv.joint {n : ℕ} {ks : List ℕ} {x : Monitor.Call BoxThread (BoxOp M) (BoxReply ε ρ)}
    (h : BoxInv spec view s₀ w k a n ks) (hsee : (boxSee x : Option (BoxEvent M ε ρ)) = none)
    (hk : BoxStep k (some (.inr x)) k')
    (ha : Monitor.AtomicStep (boxApply spec view) (boxTells asks) a (some x) a') :
    BoxInv spec view s₀ w k' a' n ks := by
  have hwork := h.work
  have hdraws := h.draws
  cases hk with
  | told _ => cases hsee
  | @handle msg hplace =>
    rw [hplace] at hwork
    cases ha with
    | call _ hidle =>
      obtain ⟨-, hthrew, hhand, hn⟩ := hwork
      refine h.workerOnly ?_ rfl ⟨rfl, Monitor.Atomic.status_move_of_ne _ (by decide) _⟩
      exact ⟨hthrew, msg, Or.inl ⟨Monitor.Atomic.status_move_self _ _ _, hhand, hn⟩⟩
  | handled _ =>
    cases ha with
    | ret hdone =>
      rw [hdone] at hwork
      obtain ⟨-, hthrew, msg, s', r, hr, hhand, hmsg, hn⟩ := hwork.done
      obtain rfl := BoxReply.handled.inj hr
      refine h.workerOnly ?_ rfl ⟨rfl, Monitor.Atomic.status_move_of_ne _ (by decide) _⟩
      exact ⟨Monitor.Atomic.status_move_self _ _ _, hthrew, msg, s', hhand, hmsg, hn⟩
  | threw _ =>
    cases ha with
    | ret hdone =>
      rw [hdone] at hwork
      obtain ⟨-, hthrew, msg, s', r, hr, hhand, hmsg, hn⟩ := hwork.done
      obtain rfl := BoxReply.handled.inj hr
      refine h.workerOnly ?_ rfl ⟨rfl, Monitor.Atomic.status_move_of_ne _ (by decide) _⟩
      exact ⟨Monitor.Atomic.status_move_self _ _ _, hthrew, msg, s', hhand, hmsg, hn⟩
  | copy hplace =>
    rw [hplace] at hdraws
    cases ha with
    | call _ hidle =>
      exact h.ui (Or.inl ⟨Monitor.Atomic.status_move_self _ _ _, hdraws.2⟩) h.shows
        ⟨h.sorted, h.below⟩ ⟨rfl, Monitor.Atomic.status_move_of_ne _ (by decide) _, rfl⟩ rfl
        h.announced.atDrawing
  | copied _ =>
    cases ha with
    | ret hdone =>
      rw [hdone] at hdraws
      obtain ⟨-, -, r, hr, hcopied⟩ := hdraws.done
      obtain rfl := BoxReply.copied.inj hr
      exact h.ui ⟨Monitor.Atomic.status_move_self _ _ _, hcopied⟩ h.shows ⟨h.sorted, h.below⟩
        ⟨rfl, Monitor.Atomic.status_move_of_ne _ (by decide) _, rfl⟩ rfl h.announced.atDrawing

/-- The messages taken, each counted once. -/
theorem Seen.length_taken (w : Seen M ε ρ) : w.taken.length = w.dequeued.length :=
  List.length_map _

/-- **A redraw the handler asks for**: its message is in the object already. -/
theorem BoxInv.told {n : ℕ} {ks : List ℕ} {i : BoxThread} (h : BoxInv spec view s₀ w k a n ks)
    (hk : BoxStep k (some (.inr (.told i))) k')
    (ha : Monitor.AtomicStep (boxApply spec view) (boxTells asks) a (some (.told i)) a') :
    BoxInv spec view s₀ (w.note (.own .postedInside)) k' a' n ks := by
  have hwork := h.work
  cases hk with
  | told hplace =>
    cases ha with
    | @tell _ left reply hdone =>
      rw [hdone] at hwork
      obtain ⟨-, hthrew, msg, s', r, rfl, hhand, hmsg, rfl⟩ := hwork.done
      have hlen := w.length_taken
      have hle : w.asked ≤ w.dequeued.length :=
        Nat.le_trans h.announced.asked_le (Nat.le_of_eq hlen)
      refine h.worker [] ?_ (List.append_nil _).symm
        ⟨Nat.le_trans h.announced.posted_le hle, Nat.le_of_eq hlen.symm, h.announced.atDrawing⟩
        ⟨hle, Nat.le_refl _⟩ ⟨rfl, Monitor.Atomic.status_move_of_ne _ (by decide) _⟩ ⟨rfl, rfl⟩
      rw [hplace]
      exact ⟨hthrew, msg,
        Or.inr ⟨s', left, r, hhand, Monitor.Atomic.status_move_self _ _ _, hmsg, rfl⟩⟩

/-- A step of the worker that no one sees. -/
theorem BoxInv.silent {n : ℕ} {ks : List ℕ} (h : BoxInv spec view s₀ w k a n ks)
    (hk : BoxStep k none k') : BoxInv spec view s₀ w k' a n ks := by
  have hwork := h.work
  cases hk with
  | loop hplace _ =>
    rw [hplace] at hwork
    exact h.workerOnly hwork rfl ⟨rfl, rfl⟩
  | miss hplace =>
    rw [hplace] at hwork
    exact h.workerOnly hwork rfl ⟨rfl, rfl⟩
  | backOff hplace _ =>
    rw [hplace] at hwork
    exact h.workerOnly hwork rfl ⟨rfl, rfl⟩

theorem Seen.taken_note_dequeued (w : Seen M ε ρ) (c : ℕ) (msg : M) :
    (w.note (.own (.dequeued c msg))).taken = w.taken ++ [msg] := by
  unfold taken
  show (w.dequeued ++ [(c, msg)]).map _ = _
  rw [List.map_append]
  rfl

/-- **A step that is seen.** A drawing that is done joins those before it. -/
theorem BoxInv.note {n : ℕ} {ks : List ℕ} {e : BoxEvent M ε ρ} (h : BoxInv spec view s₀ w k a n ks)
    (hk : BoxStep k (some (.inl e)) k') : ∃ ks', BoxInv spec view s₀ (w.note e) k' a n ks' := by
  have hwork := h.work
  have hdraws := h.draws
  cases hk with
  | enqueue c msg => exact ⟨ks, h.workerOnly hwork rfl ⟨rfl, rfl⟩⟩
  | requestStop => exact ⟨ks, h.workerOnly hwork rfl ⟨rfl, rfl⟩⟩
  | leave hplace _ =>
    rw [hplace] at hwork
    exact ⟨ks, h.workerOnly hwork rfl ⟨rfl, rfl⟩⟩
  | leaveEmpty hplace _ =>
    rw [hplace] at hwork
    exact ⟨ks, h.workerOnly hwork rfl ⟨rfl, rfl⟩⟩
  | @dequeue c msg rest hplace hback =>
    rw [hplace] at hwork
    obtain ⟨hidle, hthrew, hposted, hall, hn⟩ := hwork
    refine ⟨ks, h.worker [msg] ?_ (w.taken_note_dequeued c msg)
      ⟨h.announced.posted_le, h.announced.asked_le, h.announced.atDrawing⟩
      ⟨Nat.le_refl _, Nat.le_refl _⟩ ⟨rfl, rfl⟩ ⟨rfl, rfl⟩⟩
    exact ⟨hidle, hthrew, ⟨w.taken, w.taken_note_dequeued c msg, hposted, hall⟩,
      hn.trans hposted.symm⟩
  | post hplace =>
    rw [hplace] at hwork
    obtain ⟨hidle, hthrew, msg, s', hhand, hmsg, rfl⟩ := hwork
    have hlen := w.length_taken
    have hposted : w.posted + 1 = w.dequeued.length := hhand.length.symm.trans hlen
    refine ⟨ks, h.worker [] ?_ (List.append_nil _).symm
      ⟨Nat.le_of_eq hposted, Nat.le_of_eq hlen.symm, h.announced.atDrawing⟩
      ⟨Nat.le_trans h.announced.asked_le (Nat.le_of_eq hlen), Nat.le_refl _⟩ ⟨rfl, rfl⟩ ⟨rfl, rfl⟩⟩
    exact ⟨hidle, hthrew, hhand.length.symm, hhand.after hmsg, rfl⟩
  | @keepException e hplace =>
    rw [hplace] at hwork
    obtain ⟨hidle, -, hfailed⟩ := hwork
    exact ⟨ks, h.workerOnly ⟨hidle, e, rfl, hfailed⟩ rfl ⟨rfl, rfl⟩⟩
  | draw hplace =>
    rw [hplace] at hdraws
    exact ⟨ks, h.ui ⟨hdraws, Nat.le_refl _⟩ h.shows ⟨h.sorted, h.below⟩ ⟨rfl, rfl, rfl⟩ rfl
      h.announced.posted_le⟩
  | @drawn r hplace =>
    rw [hplace] at hdraws
    obtain ⟨hidle, j, hfresh, hks, hj, hr⟩ := hdraws
    have hlen := w.length_taken
    have hshows : Shows spec view s₀ w.taken
        ⟨w.postedAtDrawing, w.askedAtDrawing, w.dequeued.length, r⟩ j :=
      ⟨h.announced.atDrawing, hfresh, hlen ▸ Nat.le_trans hj h.work.boundary.le_taken,
        Nat.le_of_eq hlen.symm, hr⟩
    refine ⟨ks ++ [j], h.ui hidle
      (List.rel_append h.shows (List.Forall₂.cons hshows List.Forall₂.nil)) ⟨?_, ?_⟩
      ⟨rfl, rfl, rfl⟩ rfl h.announced.atDrawing⟩
    · refine List.pairwise_append.mpr ⟨h.sorted, List.pairwise_singleton _ _, ?_⟩
      intro i hi i' hi'
      rw [List.mem_singleton.mp hi']
      exact hks i hi
    · intro i hi
      rcases List.mem_append.mp hi with hi | hi
      · exact h.below i hi
      · rw [List.mem_singleton.mp hi]
        exact hj

theorem boxInv_of_reaches {t : List (BoxEvent M ε ρ)}
    (h : (boxSpec spec asks view s₀).Reaches t (k, a)) :
    ∃ n ks, BoxInv spec view s₀ (seen t) k a n ks := by
  refine h.observe (I := fun w p => ∃ n ks, BoxInv spec view s₀ w p.1 p.2 n ks) ?_ ?_ ?_
  · rintro ⟨k, a⟩ ⟨rfl, rfl⟩
    exact ⟨0, [], ⟨rfl, rfl, rfl, rfl, rfl⟩, ⟨Nat.le_refl _, Nat.le_refl _, Nat.le_refl _⟩, rfl,
      List.Forall₂.nil, List.Pairwise.nil, nofun⟩
  · rintro w p p' ⟨n, ks, hinv⟩ hstep
    cases hstep with
    | silent hk => exact ⟨n, ks, hinv.silent hk⟩
    | object ha =>
      cases ha with
      | commit hcalled htells =>
        obtain ⟨n', hinv'⟩ := hinv.commit hcalled htells
        exact ⟨n', ks, hinv'⟩
    | joint hsee hk ha => exact ⟨n, ks, hinv.joint hsee hk ha⟩
  · rintro w p e p' ⟨n, ks, hinv⟩ hstep
    cases hstep with
    | visible hk =>
      obtain ⟨ks', hinv'⟩ := hinv.note hk
      exact ⟨n, ks', hinv'⟩
    | joint hsee hk ha =>
      obtain ⟨⟨i, rfl⟩, rfl⟩ := boxSee_eq_some hsee
      exact ⟨n, ks, hinv.told hk ha⟩

/-! ## What is true of everything seen -/

/-- **A box that works as it should**, to someone who has seen `w` of it. -/
structure Works (spec : M → EStateM ε σ Unit) (view : σ → ρ) (s₀ : σ) (w : Seen M ε ρ) :
    Prop where
  /-- The messages of a thread are taken in the order it put them there. -/
  inOrder : ∀ c, w.takenFrom c <+: w.enqueued c
  /-- A redraw is asked for after every message taken but the last. -/
  posts : w.posted ≤ w.taken.length ∧ w.taken.length ≤ w.posted + 1
  /-- It is asked for when the message has been handled. -/
  handled : ∃ s, Resumption.outcome (handleAll spec (w.taken.take w.posted)) s₀ = (.ok (), s)
  /-- What is drawn is the object after the first messages taken, more of them
  every time. -/
  drawings : ∃ ks : List ℕ, ks.Pairwise (· ≤ ·)
    ∧ List.Forall₂ (Shows spec view s₀ w.taken) w.drawings ks
  /-- Once a stop is requested one more message is taken at most. -/
  stop : ∀ d, w.takenAtStop = some d → w.taken.length ≤ d + 1
  /-- The worker returns only when asked to, and with no message half
  handled. -/
  returned : w.returned = true → w.takenAtStop.isSome = true
    ∧ ∃ s, Resumption.outcome (handleAll spec w.taken) s₀ = (.ok (), s)
  /-- An exception kept is that of the last message taken. -/
  threw : ∀ e, w.threw = some e → ∃ pre msg s s', w.taken = pre ++ [msg]
    ∧ Resumption.outcome (handleAll spec pre) s₀ = (.ok (), s)
    ∧ Resumption.outcome (spec msg) s = (.error e, s')

/-- What a drawing shows. -/
theorem Works.shows {w : Seen M ε ρ} (h : Works spec view s₀ w) {v : Drawing ρ}
    (hv : v ∈ w.drawings) : ∃ k, Shows spec view s₀ w.taken v k := by
  obtain ⟨ks, -, hshows⟩ := h.drawings
  obtain ⟨i, hi, rfl⟩ := List.getElem_of_mem hv
  exact ⟨_, hshows.get hi (hshows.length_eq ▸ hi)⟩

/-- Where the worker stands says how many messages it has yet to ask a redraw
for. -/
theorem Work.posts {taken : List M} {posted n : ℕ} {threw : Option ε} {s : σ}
    {status : Monitor.Status (BoxOp M) (BoxReply ε ρ)} {p : PollPlace M ε}
    (h : Work spec s₀ taken posted threw n status s p) :
    posted ≤ taken.length ∧ taken.length ≤ posted + 1 := by
  have hhand : ∀ {msg : M} {s' : σ}, InHand spec s₀ taken posted msg s' →
      posted ≤ taken.length ∧ taken.length ≤ posted + 1 := by
    intro msg s' hhand
    rw [hhand.length]
    exact ⟨Nat.le_succ _, Nat.le_refl _⟩
  cases p with
  | taken msg => exact hhand h.2.2.1
  | handling =>
    obtain ⟨-, msg, ⟨-, hin, -⟩ | ⟨s', left, r, hin, -⟩⟩ := h
    · exact hhand hin
    · exact hhand hin
  | handled =>
    obtain ⟨-, -, msg, s', hin, -⟩ := h
    exact hhand hin
  | caught e =>
    obtain ⟨-, -, msg, s', hin, -⟩ := h
    exact hhand hin
  | failed =>
    obtain ⟨-, e, -, msg, s', hin, -⟩ := h
    exact hhand hin
  | _ =>
    obtain ⟨-, -, hposted, -⟩ := h
    exact ⟨Nat.le_of_eq hposted, Nat.le_of_lt (Nat.lt_succ_of_le (Nat.le_of_eq hposted.symm))⟩

/-- The messages a redraw was asked for have all been handled. -/
theorem Work.handled {taken : List M} {posted n : ℕ} {threw : Option ε} {s : σ}
    {status : Monitor.Status (BoxOp M) (BoxReply ε ρ)} {p : PollPlace M ε}
    (h : Work spec s₀ taken posted threw n status s p) :
    ∃ s', Resumption.outcome (handleAll spec (taken.take posted)) s₀ = (.ok (), s') := by
  have hhand : ∀ {msg : M} {s' : σ}, InHand spec s₀ taken posted msg s' →
      ∃ s', Resumption.outcome (handleAll spec (taken.take posted)) s₀ = (.ok (), s') := by
    rintro msg s' ⟨pre, rfl, rfl, hpre⟩
    rw [List.take_left]
    exact ⟨s', hpre⟩
  cases p with
  | taken msg => exact hhand h.2.2.1
  | handling =>
    obtain ⟨-, msg, ⟨-, hin, -⟩ | ⟨s', left, r, hin, -⟩⟩ := h
    · exact hhand hin
    · exact hhand hin
  | handled =>
    obtain ⟨-, -, msg, s', hin, -⟩ := h
    exact hhand hin
  | caught e =>
    obtain ⟨-, -, msg, s', hin, -⟩ := h
    exact hhand hin
  | failed =>
    obtain ⟨-, e, -, msg, s', hin, -⟩ := h
    exact hhand hin
  | _ =>
    obtain ⟨-, -, rfl, hall, -⟩ := h
    rw [List.take_length]
    exact ⟨s, hall⟩

/-- An exception kept is the one of the last message. -/
theorem Work.threw {taken : List M} {posted n : ℕ} {e : ε} {s : σ}
    {status : Monitor.Status (BoxOp M) (BoxReply ε ρ)} {p : PollPlace M ε}
    (h : Work spec s₀ taken posted (some e) n status s p) :
    ∃ msg s', InHand spec s₀ taken posted msg s'
      ∧ Resumption.outcome (spec msg) s' = (.error e, s) := by
  cases p with
  | failed =>
    obtain ⟨-, e', he, msg, s', hhand, hmsg, -⟩ := h
    rw [Option.some.inj he]
    exact ⟨msg, s', hhand, hmsg⟩
  | handling => cases h.1
  | _ => cases h.2.1

/-- **The object with indivisible operations makes a box that works.** -/
theorem works_of_trace {t : List (BoxEvent M ε ρ)} (h : (boxSpec spec asks view s₀).Trace t) :
    Works spec view s₀ (seen t) := by
  obtain ⟨⟨k, a⟩, hreach⟩ := h
  obtain ⟨n, ks, hinv⟩ := boxInv_of_reaches hreach
  have hstop := stopKept_of_reaches hreach
  have hlen := (seen t).length_taken
  refine ⟨fun c => ⟨k.backlog c, (queueKept_of_reaches hreach c).symm⟩, hinv.work.posts,
    hinv.work.handled, ⟨ks, hinv.sorted, hinv.shows⟩, fun d hd => ?_, fun hr => ?_, fun e he => ?_⟩
  · rw [hlen]
    exact hstop.bound d hd
  · have hwork := hinv.work
    rw [returnedKept_of_reaches hreach hr] at hwork
    exact ⟨hstop.returned hr, a.state, hwork.2.2.2.1⟩
  · have hwork := hinv.work
    rw [he] at hwork
    obtain ⟨msg, s', ⟨pre, hpre, -, hall⟩, hmsg⟩ := hwork.threw
    exact ⟨pre, msg, s', a.state, hpre, hall, hmsg⟩

/-- **A box works**: whatever its threads do and in whatever order, with the
lock taken and released as it is written. -/
theorem Codes.works {handler : M → Resumption σ (Except ε Unit)} {reader : Resumption σ ρ}
    (h : Codes handler reader spec asks view) {t : List (BoxEvent M ε ρ)}
    (ht : (box handler reader s₀).Trace t) : Works spec view s₀ (seen t) :=
  works_of_trace ((h.refines s₀).trace ht)

end Seen

end Ui
