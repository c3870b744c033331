import Mathlib.Logic.Function.Iterate
import Trader.BookHistory
import Trader.TradeBox

set_option autoImplicit false

/-!
# The polling workers

`poll_queue` is the same loop in both boxes, around a different handler:
take a message off the queue, hand it over, start again; back off when the
queue is empty. The `try` stands outside the loop, so the first exception of
a handler ends the worker for good, with the rest of the queue unread.

So a worker gets through its queue exactly when every message in it is one
the handler ends normally on (`getsThrough_iff`). For the two handlers that
is a condition on the symbols: those of other instruments are skipped only
after a conversion that throws on most of them.

Only the worker is here. With the threads that feed its queue, the lock and
the UI thread it is part of a box, which does whatever it does
(`exists_reaches_after`).
-/

namespace Ui

open Fix Binance EarlyExit

/-! ## The loop -/

/-- The two variables `adaptive_backoff` captures. -/
structure Backoff where
  spinCount : UInt8
  sleepTimeUs : UInt16
  deriving DecidableEq

namespace Backoff

/-- The state a worker starts from and comes back to after a message. -/
def initial : Backoff := ⟨0, 10⟩

/-- `adaptive_backoff`: yield ten times, then sleep for twice as long each
time, up to a millisecond. -/
def next (b : Backoff) : Backoff :=
  if b.spinCount < 10 then { b with spinCount := b.spinCount + 1 }
  else { b with sleepTimeUs := min (b.sleepTimeUs * 2) 1000 }

/-- A worker never sleeps for more than a millisecond. -/
def Bounded (b : Backoff) : Prop := b.sleepTimeUs ≤ 1000

theorem bounded_initial : initial.Bounded := by
  unfold Bounded
  decide

theorem Bounded.next {b : Backoff} (h : b.Bounded) : b.next.Bounded := by
  unfold Backoff.next
  split
  · exact h
  · show (if b.sleepTimeUs * 2 ≤ 1000 then b.sleepTimeUs * 2 else 1000) ≤ (1000 : UInt16)
    split
    · assumption
    · exact UInt16.le_refl _

end Backoff

/-- Where a worker stands in `poll_queue`. -/
inductive Phase where
  /-- At `while (!stoken.stop_requested())`. -/
  | loop
  /-- At `queue_.try_dequeue(msg)`. -/
  | dequeue
  /-- Returned: a stop was requested. -/
  | returned
  /-- Left through the `catch`, with this in `thread_exception`. -/
  | failed (e : Exception)
  deriving DecidableEq

variable {M σ : Type}

/-- A worker: where it stands, what is in its queue, the messages it has
handed over so far, and the state they act on. -/
structure Poller (M σ : Type) where
  phase : Phase
  queue : List M
  handed : List M
  state : σ
  backoff : Backoff

namespace Poller

/-- A worker that has just been started. -/
def start (queue : List M) (state : σ) : Poller M σ :=
  ⟨.loop, queue, [], state, .initial⟩

/-- Hand over a message that was dequeued. -/
def handle (handler : M → EStateM Exception σ Unit) (msg : M) (rest : List M)
    (p : Poller M σ) : Poller M σ :=
  match (handler msg).run p.state with
  | .ok _ state => ⟨.loop, rest, p.handed ++ [msg], state, .initial⟩
  | .error e state => ⟨.failed e, rest, p.handed ++ [msg], state, p.backoff⟩

/-- One step of `poll_queue`, with what `stop_requested` answers in it. -/
def tick (handler : M → EStateM Exception σ Unit) (stopRequested : Bool)
    (p : Poller M σ) : Poller M σ :=
  match p.phase, p.queue with
  | .loop, _ => { p with phase := if stopRequested then .returned else .dequeue }
  | .dequeue, [] =>
    if stopRequested then { p with phase := .returned }
    else { p with backoff := p.backoff.next }
  | .dequeue, msg :: rest => handle handler msg rest p
  | .returned, _ => p
  | .failed _, _ => p

/-- A worker no one has asked to stop, after `n` steps. -/
def after (handler : M → EStateM Exception σ Unit) (n : ℕ) (p : Poller M σ) : Poller M σ :=
  (tick handler false)^[n] p

/-- **A worker gets through its queue**: no exception ever takes it out of
its loop, and from some step on every message has been handed over. -/
def GetsThrough (handler : M → EStateM Exception σ Unit) (queue : List M) (s : σ) : Prop :=
  (∀ n e, (after handler n (start queue s)).phase ≠ .failed e)
    ∧ ∃ N, ∀ n, N ≤ n → (after handler n (start queue s)).handed = queue
      ∧ (after handler n (start queue s)).queue = []

section GetsThrough

variable {handler : M → EStateM Exception σ Unit} {P : M → Prop} {f : M → σ → σ}

/-- What holds of a worker at every step, as long as the messages are all
ones the handler ends normally on. -/
structure Running (P : M → Prop) (f : M → σ → σ) (queue : List M) (s : σ)
    (p : Poller M σ) : Prop where
  phase : p.phase = .loop ∨ p.phase = .dequeue
  fine : ∀ msg ∈ p.queue, P msg
  split : p.handed ++ p.queue = queue
  state : p.state = p.handed.foldl (fun s msg => f msg s) s
  backoff : p.backoff.Bounded

theorem handle_of_ok
    (hok : ∀ msg s u s', (handler msg).run s = .ok u s' ↔ P msg ∧ s' = f msg s)
    {msg : M} (hmsg : P msg) (rest : List M) (p : Poller M σ) :
    handle handler msg rest p
      = ⟨.loop, rest, p.handed ++ [msg], f msg p.state, .initial⟩ := by
  unfold handle
  rw [(hok msg p.state () _).mpr ⟨hmsg, rfl⟩]

/-- One step keeps a worker running, and takes nothing into its queue. -/
theorem Running.tick
    (hok : ∀ msg s u s', (handler msg).run s = .ok u s' ↔ P msg ∧ s' = f msg s)
    {queue : List M} {s : σ} {p : Poller M σ} (h : Running P f queue s p) :
    Running P f queue s (tick handler false p)
      ∧ (p.queue = [] → (tick handler false p).queue = []) := by
  obtain ⟨phase, q, handed, state, backoff⟩ := p
  obtain ⟨hphase, hfine, hsplit, hstate, hbackoff⟩ := h
  rcases hphase with hphase | hphase
  · obtain rfl : phase = .loop := hphase
    exact ⟨⟨Or.inr rfl, hfine, hsplit, hstate, hbackoff⟩, fun hq => hq⟩
  · obtain rfl : phase = .dequeue := hphase
    cases q with
    | nil => exact ⟨⟨Or.inr rfl, hfine, hsplit, hstate, hbackoff.next⟩, fun hq => hq⟩
    | cons msg rest =>
      obtain ⟨hmsg, hrest⟩ := List.forall_mem_cons.mp hfine
      refine ⟨?_, fun hq => absurd hq (List.cons_ne_nil _ _)⟩
      show Running P f queue s (handle handler msg rest _)
      rw [handle_of_ok hok hmsg]
      refine ⟨Or.inl rfl, hrest, ?_, ?_, Backoff.bounded_initial⟩
      · rw [← hsplit]
        exact List.append_assoc _ _ _
      · show f msg state = _
        rw [List.foldl_append, show state = _ from hstate]
        rfl

/-- A worker keeps running. -/
theorem Running.after
    (hok : ∀ msg s u s', (handler msg).run s = .ok u s' ↔ P msg ∧ s' = f msg s)
    {queue : List M} {s : σ} {p : Poller M σ} (h : Running P f queue s p) (n : ℕ) :
    Running P f queue s (after handler n p)
      ∧ (p.queue = [] → (Poller.after handler n p).queue = []) := by
  induction n with
  | zero => exact ⟨h, fun hq => hq⟩
  | succ n ih =>
    unfold Poller.after at ih ⊢
    rw [Function.iterate_succ_apply']
    obtain ⟨hrun, hempty⟩ := ih.1.tick hok
    exact ⟨hrun, fun hq => hempty (ih.2 hq)⟩

/-- Two steps for each message take a worker through the messages the
handler ends normally on. -/
theorem exists_after_handed
    (hok : ∀ msg s u s', (handler msg).run s = .ok u s' ↔ P msg ∧ s' = f msg s)
    {pre : List M} (hpre : ∀ msg ∈ pre, P msg) (rest handed : List M) (s : σ)
    (backoff : Backoff) :
    ∃ s' backoff', after handler (2 * pre.length) ⟨.loop, pre ++ rest, handed, s, backoff⟩
      = ⟨.loop, rest, handed ++ pre, s', backoff'⟩ := by
  induction pre generalizing handed s backoff with
  | nil => exact ⟨s, backoff, by rw [List.append_nil]; rfl⟩
  | cons msg pre ih =>
    obtain ⟨hmsg, hpre⟩ := List.forall_mem_cons.mp hpre
    obtain ⟨s', backoff', h⟩ := ih hpre (handed ++ [msg]) (f msg s) .initial
    refine ⟨s', backoff', ?_⟩
    have htwo : tick handler false (tick handler false
        ⟨.loop, msg :: (pre ++ rest), handed, s, backoff⟩)
        = ⟨.loop, pre ++ rest, handed ++ [msg], f msg s, .initial⟩ :=
      handle_of_ok hok hmsg _ _
    unfold after at h ⊢
    rw [List.length_cons, Nat.mul_succ, Function.iterate_add_apply, Function.iterate_succ_apply,
      Function.iterate_one, List.cons_append, htwo, h, List.append_assoc]
    rfl

/-- A list that is not all of a kind has a first member that is not. -/
theorem exists_first_not {queue : List M} (h : ¬ ∀ msg ∈ queue, P msg) :
    ∃ pre msg post, queue = pre ++ msg :: post ∧ (∀ m ∈ pre, P m) ∧ ¬ P msg := by
  induction queue with
  | nil => exact absurd (fun msg hmem => absurd hmem List.not_mem_nil) h
  | cons msg queue ih =>
    by_cases hmsg : P msg
    · obtain ⟨pre, m, post, rfl, hpre, hm⟩ :=
        ih (fun hall => h (List.forall_mem_cons.mpr ⟨hmsg, hall⟩))
      exact ⟨msg :: pre, m, post, rfl, List.forall_mem_cons.mpr ⟨hmsg, hpre⟩, hm⟩
    · exact ⟨[], msg, queue, rfl, fun m hmem => absurd hmem List.not_mem_nil, hmsg⟩

/-- **A message the handler throws on ends the worker**: the messages before
it are handed over, and it is next. -/
theorem exists_failed
    (hok : ∀ msg s u s', (handler msg).run s = .ok u s' ↔ P msg ∧ s' = f msg s)
    {queue : List M} (hbad : ¬ ∀ msg ∈ queue, P msg) (s : σ) :
    ∃ n e, (after handler n (start queue s)).phase = .failed e := by
  obtain ⟨pre, msg, post, rfl, hpre, hmsg⟩ := exists_first_not hbad
  obtain ⟨s', backoff', h⟩ := exists_after_handed hok hpre (msg :: post) [] s .initial
  have hfail : ∃ e, (tick handler false (tick handler false
      ⟨.loop, msg :: post, [] ++ pre, s', backoff'⟩)).phase = .failed e := by
    show ∃ e, (handle handler msg post
      ⟨.dequeue, msg :: post, [] ++ pre, s', backoff'⟩).phase = .failed e
    unfold handle
    cases hrun : (handler msg).run s' with
    | ok u s'' => exact absurd ((hok msg s' u s'').mp hrun).1 hmsg
    | error e s'' => exact ⟨e, rfl⟩
  obtain ⟨e, he⟩ := hfail
  refine ⟨2 + 2 * pre.length, e, ?_⟩
  unfold after at h ⊢
  rw [Function.iterate_add_apply, start, h]
  exact he

/-- A worker that keeps running hands over its whole queue, in two steps for
each message, and then polls an empty one. -/
theorem exists_handed
    (hok : ∀ msg s u s', (handler msg).run s = .ok u s' ↔ P msg ∧ s' = f msg s)
    {queue : List M} {s : σ} (hall : ∀ msg ∈ queue, P msg)
    (hstart : Running P f queue s (start queue s)) :
    ∃ N, ∀ n, N ≤ n → (after handler n (start queue s)).handed = queue
      ∧ (after handler n (start queue s)).queue = [] := by
  refine ⟨2 * queue.length, fun n hn => ?_⟩
  obtain ⟨s', backoff', h⟩ := exists_after_handed hok hall [] [] s .initial
  rw [List.append_nil] at h
  have hrun := hstart.after hok (2 * queue.length)
  have hempty : (after handler n (start queue s)).queue = [] := by
    obtain ⟨m, rfl⟩ := Nat.exists_eq_add_of_le hn
    have hmore := (hrun.1.after hok m).2 (congrArg Poller.queue h)
    unfold after at hmore ⊢
    rw [Nat.add_comm, Function.iterate_add_apply]
    exact hmore
  have hsplit := (hstart.after hok n).1.split
  rw [hempty, List.append_nil] at hsplit
  exact ⟨hsplit, hempty⟩

/-- **A worker gets through its queue** exactly when the handler ends
normally on every message in it. -/
theorem getsThrough_iff
    (hok : ∀ msg s u s', (handler msg).run s = .ok u s' ↔ P msg ∧ s' = f msg s)
    (queue : List M) (s : σ) :
    GetsThrough handler queue s ↔ ∀ msg ∈ queue, P msg := by
  constructor
  · rintro ⟨hnever, -⟩
    by_contra hbad
    obtain ⟨n, e, he⟩ := exists_failed hok hbad s
    exact hnever n e he
  · intro hall
    have hstart : Running P f queue s (start queue s) :=
      ⟨Or.inl rfl, hall, rfl, rfl, Backoff.bounded_initial⟩
    refine ⟨fun n e hfailed => ?_, exists_handed hok hall hstart⟩
    rcases (hstart.after hok n).1.phase with h | h
    · rw [h] at hfailed
      cases hfailed
    · rw [h] at hfailed
      cases hfailed

end GetsThrough

end Poller

end Ui
