import Trader.Connections
import Trader.Reconnect
import Trader.SharedBook

set_option autoImplicit false

/-!
# Simpler views of a box

Where one aspect of a box matters, the others are left out: a worker alone
with its queue (`Poller`), the sessions that feed a queue and the worker that
empties it (`Reconnect.Feed`), a worker and a reader at the book
(`Core.System`). None of them has all of the threads, the stop token, the
lock and the redraws.

Each of them does only what a box can do. A state it reaches is one of a
box, with the same messages on the queue, the same ones taken off it and the
same object (`exists_reaches_after`, `Reconnect.exists_reaches_run`,
`System.exists_reaches`), and a feed whose receipts are calm makes a
calm queue (`CalmlyReached.exists_reaches`). So `poll_queue` is the same loop
in all of them, and what holds of every box holds of each.
-/

namespace Ui

open Fix EarlyExit Binance Transition

variable {M ρ σ : Type}

/-! ## What is taken -/

section Taken

variable {ε : Type}

/-- The message an event takes off the queue, if it does. -/
def BoxEvent.took : BoxEvent M ε ρ → Option M
  | .own (.dequeued _ msg) => some msg
  | _ => none

/-- What has been taken is read off what was seen meanwhile. -/
theorem Seen.taken_foldl_note (w : Seen M ε ρ) (u : List (BoxEvent M ε ρ)) :
    (u.foldl Seen.note w).taken = w.taken ++ u.filterMap BoxEvent.took := by
  induction u using List.reverseRecOn with
  | nil => exact (List.append_nil _).symm
  | append_singleton u e ih =>
    rw [List.foldl_concat, List.filterMap_append, ← List.append_assoc, ← ih]
    cases e with
    | enqueued c msg => exact (List.append_nil _).symm
    | own act =>
      cases act with
      | dequeued c msg => exact Seen.taken_note_dequeued _ _ _
      | _ => exact (List.append_nil _).symm

theorem took_postedWithin (n : ℕ) :
    ((postedWithin n : List (BoxAct M ε ρ)).map BoxEvent.own).filterMap BoxEvent.took = [] := by
  rw [List.filterMap_map]
  exact List.filterMap_eq_nil_iff.mpr (fun act hact => by rw [mem_postedWithin hact]; rfl)

/-- A message that is handled, or on which the handler throws, is taken once. -/
theorem Seen.taken_message (w : Seen M ε ρ) (c : ℕ) (msg : M) (n : ℕ) (act : BoxAct M ε ρ)
    (hact : BoxEvent.took (.own act) = none) :
    (((BoxAct.dequeued c msg :: postedWithin n ++ [act]).map BoxEvent.own).foldl Seen.note w).taken
      = w.taken ++ [msg] := by
  have htake : BoxEvent.took (.own (.dequeued c msg) : BoxEvent M ε ρ) = some msg := rfl
  rw [Seen.taken_foldl_note, List.map_append, List.map_cons, List.filterMap_append,
    List.filterMap_cons_some htake, took_postedWithin, List.map_singleton,
    List.filterMap_cons_none hact]
  rfl

/-- One thread puts messages on the queue. -/
theorem run_of_enqueued {handler : M → Resumption σ (Except ε Unit)} {reader : Resumption σ ρ}
    {s₀ : σ} {k : BoxClient M ε ρ} {c : Monitor.Locked BoxThread σ (BoxOp M) (BoxReply ε ρ)}
    (i : ℕ) (msgs : List M) :
    (box handler reader s₀).Run (k, c) (msgs.map (.enqueued i))
      ({ k with backlog := Function.update k.backlog i (k.backlog i ++ msgs) }, c) := by
  induction msgs using List.reverseRecOn with
  | nil =>
    rw [List.append_nil, Function.update_eq_self]
    exact Machine.Run.refl
  | append_singleton msgs msg ih =>
    have hmore := ih.tail (l := some _) (AttachStep.visible (BoxStep.enqueue i msg))
    dsimp only at hmore
    rw [Function.update_self, Function.update_idem, List.append_assoc] at hmore
    rw [List.map_append]
    exact hmore

theorem took_map_enqueued (i : ℕ) (msgs : List M) :
    (msgs.map (fun msg => (.enqueued i msg : BoxEvent M ε ρ))).filterMap BoxEvent.took = [] := by
  rw [List.filterMap_map]
  exact List.filterMap_eq_nil_iff.mpr (fun _ _ => rfl)

theorem enqueuedBy_map_enqueued (i : ℕ) (msgs : List M) :
    (msgs.map (fun msg => (.enqueued i msg : BoxEvent M ε ρ))).filterMap
      (BoxEvent.enqueuedBy i) = msgs := by
  have hby : BoxEvent.enqueuedBy i ∘ (fun msg => (.enqueued i msg : BoxEvent M ε ρ)) = some :=
    funext (fun msg => if_pos rfl)
  rw [List.filterMap_map, hby, List.filterMap_some]

theorem enqueuedBy_own (us : List (BoxAct M ε ρ)) (c : ℕ) :
    (us.map BoxEvent.own).filterMap (BoxEvent.enqueuedBy c) = [] := by
  rw [List.filterMap_map]
  exact List.filterMap_eq_nil_iff.mpr (fun _ _ => rfl)

end Taken

/-! ## A worker alone with its queue -/

section Poller

open Poller

variable {handler : M → Resumption σ (Except Exception Unit)} {reader : Resumption σ ρ}
  {spec : M → EStateM Exception σ Unit} {asks : ℕ → σ → σ → Prop} {view : σ → ρ} {s₀ : σ}
  {w : Seen M Exception ρ} {k : BoxClient M Exception ρ} {p : Poller M σ}

/-- Where in `poll_queue` a phase is. -/
def Phase.place : Phase → PollPlace M Exception
  | .loop => .loop
  | .dequeue => .dequeue
  | .returned => .returned
  | .failed _ => .failed

/-- **A poller, as a box** whose queue one thread has filled. -/
structure Poller.IsBox (p : Poller M σ) (w : Seen M Exception ρ) (k : BoxClient M Exception ρ) :
    Prop where
  worker : k.worker = p.phase.place
  queue : k.backlog 0 = p.queue
  backoff : k.backoff = p.backoff
  handed : w.taken = p.handed
  failed : ∀ e, p.phase = .failed e → w.threw = some e

/-- **A step of a poller is some of a box**, with the stop token in the state
it says. -/
theorem exists_run_tick (s₀ : σ) (h : Codes handler reader spec asks view) (hp : p.IsBox w k) :
    ∃ (us : List (BoxAct M Exception ρ)) (k' : BoxClient M Exception ρ),
      (box handler reader s₀).Run (k, Monitor.unattended p.state) (us.map .own)
        (k', Monitor.unattended (tick spec k.stopRequested p).state)
      ∧ (tick spec k.stopRequested p).IsBox ((us.map .own).foldl Seen.note w) k'
      ∧ k'.stopRequested = k.stopRequested := by
  obtain ⟨phase, queue, handed, s, backoff⟩ := p
  obtain ⟨hworker, hqueue, hbackoff, hhanded, hfailed⟩ := hp
  cases phase with
  | loop =>
    cases hstop : k.stopRequested with
    | true =>
      exact ⟨[.returned], _, Machine.Run.single (l := some _)
        (AttachStep.visible (BoxStep.leave hworker hstop)),
        ⟨rfl, hqueue, hbackoff, hhanded, nofun⟩, hstop⟩
    | false =>
      exact ⟨[], _, run_of_loop hworker hstop, ⟨rfl, hqueue, hbackoff, hhanded, nofun⟩, hstop⟩
  | dequeue =>
    cases queue with
    | nil =>
      have hmiss := (Machine.Run.refl (S := box handler reader s₀)
        (s := (k, Monitor.unattended s))).silent (AttachStep.silent (BoxStep.miss hworker))
      cases hstop : k.stopRequested with
      | true =>
        exact ⟨[.returned], _, hmiss.tail (l := some _)
          (AttachStep.visible (BoxStep.leaveEmpty rfl hstop)),
          ⟨rfl, hqueue, hbackoff, hhanded, nofun⟩, hstop⟩
      | false =>
        exact ⟨[], _, hmiss.silent (AttachStep.silent (BoxStep.backOff rfl hstop)),
          ⟨rfl, hqueue, congrArg Backoff.next hbackoff, hhanded, nofun⟩, hstop⟩
    | cons msg rest =>
      have hrest : Function.update k.backlog 0 rest 0 = rest := Function.update_self _ _ _
      cases hmsg : (spec msg).run s with
      | ok u s' =>
        have htick : tick spec k.stopRequested ⟨.dequeue, msg :: rest, handed, s, backoff⟩
            = ⟨.loop, rest, handed ++ [msg], s', .initial⟩ := by
          simp only [tick, Poller.handle, hmsg]
        rw [htick]
        refine ⟨_, _, run_of_polled hworker hqueue (h.run_of_ok hmsg),
          ⟨rfl, hrest, rfl, ?_, nofun⟩, rfl⟩
        exact (w.taken_message 0 msg _ .posted rfl).trans (congrArg (· ++ [msg]) hhanded)
      | error e s' =>
        have htick : tick spec k.stopRequested ⟨.dequeue, msg :: rest, handed, s, backoff⟩
            = ⟨.failed e, rest, handed ++ [msg], s', backoff⟩ := by
          simp only [tick, Poller.handle, hmsg]
        rw [htick]
        refine ⟨_, _, run_of_failure hworker hqueue (h.run_of_error hmsg),
          ⟨rfl, hrest, hbackoff, ?_, ?_⟩, rfl⟩
        · exact (w.taken_message 0 msg _ (.threw e) rfl).trans (congrArg (· ++ [msg]) hhanded)
        · rintro e' ⟨⟩
          rw [List.map_append, List.foldl_append]
          rfl
  | returned =>
    exact ⟨[], k, Machine.Run.refl, ⟨hworker, hqueue, hbackoff, hhanded, nofun⟩, rfl⟩
  | failed e =>
    exact ⟨[], k, Machine.Run.refl, ⟨hworker, hqueue, hbackoff, hhanded, hfailed⟩, rfl⟩

/-- **A state of a poller is one of a box**: of the one whose queue one thread
has filled, once, with what the poller found in its own. -/
theorem exists_reaches_after (h : Codes handler reader spec asks view) (queue : List M) (n : ℕ) :
    ∃ (t : List (BoxEvent M Exception ρ)) (k : BoxClient M Exception ρ),
      (box handler reader s₀).Reaches t
        (k, Monitor.unattended (after spec n (start queue s₀)).state)
      ∧ (after spec n (start queue s₀)).IsBox (seen t) k
      ∧ t.filterMap (BoxEvent.enqueuedBy 0) = queue ∧ k.stopRequested = false := by
  induction n with
  | zero =>
    have hstart : (box handler reader s₀).Reaches [] (BoxClient.init, Monitor.unattended s₀) :=
      ⟨(.init, Monitor.unattended s₀), ⟨rfl, rfl⟩, Machine.Run.refl⟩
    have hback : Function.update (fun _ => []) 0 ([] ++ queue) 0 = queue :=
      Function.update_self _ _ _
    have hhanded : (seen (queue.map (.enqueued 0) : List (BoxEvent M Exception ρ))).taken = [] :=
      (Seen.taken_foldl_note _ _).trans (took_map_enqueued 0 queue)
    exact ⟨queue.map (.enqueued 0), _, hstart.run (run_of_enqueued 0 queue),
      ⟨rfl, hback, rfl, hhanded, nofun⟩, enqueuedBy_map_enqueued 0 queue, rfl⟩
  | succ n ih =>
    obtain ⟨t, k, hreach, hbox, hqueue, hstop⟩ := ih
    obtain ⟨us, k', hrun, hbox', hstop'⟩ := exists_run_tick s₀ h hbox
    rw [hstop] at hrun hbox' hstop'
    refine ⟨t ++ us.map .own, k', ?_, ?_, ?_, hstop'⟩
    · rw [after, Function.iterate_succ_apply']
      exact hreach.run hrun
    · rw [after, Function.iterate_succ_apply', seen, List.foldl_append]
      exact hbox'
    · rw [List.filterMap_append, enqueuedBy_own, List.append_nil, hqueue]

end Poller

end Ui

/-! ## The sessions that feed a queue -/

namespace Reconnect

open Fix EarlyExit Binance Transition Ui

variable {M ρ σ : Type} {handler : M → Resumption σ (Except Exception Unit)}
  {reader : Resumption σ ρ} {spec : M → EStateM Exception σ Unit} {asks : ℕ → σ → σ → Prop}
  {view : σ → ρ} {s₀ : σ} {t : List (BoxEvent M Exception ρ)} {w : Seen M Exception ρ}
  {k : BoxClient M Exception ρ} {f f' : Feed M σ}

/-- **A feed, as a box** that no one has asked to stop, its worker polling
unless it has failed. -/
structure Feed.IsBox (f : Feed M σ) (w : Seen M Exception ρ) (k : BoxClient M Exception ρ) :
    Prop where
  worker : k.worker = if f.failed then .failed else .dequeue
  queue : k.backlog = f.backlog
  applied : w.taken = f.applied
  unstopped : k.stopRequested = false

/-- What is applied is a message that the worker takes and handles. -/
theorem exists_run_dequeue (s₀ : σ) (h : Codes handler reader spec asks view) (hf : f.IsBox w k)
    {c : ℕ} (hstep : step spec f (.dequeue c) = some f') :
    ∃ (us : List (BoxAct M Exception ρ)) (k' : BoxClient M Exception ρ),
      (box handler reader s₀).Run (k, Monitor.unattended f.state) (us.map .own)
        (k', Monitor.unattended f'.state)
      ∧ f'.IsBox ((us.map .own).foldl Seen.note w) k' := by
  have halive := failed_of_step_dequeue hstep
  obtain ⟨msg, rest, hback, rfl⟩ := step_dequeue hstep
  obtain ⟨hworker, hqueue, happlied, hstop⟩ := hf
  rw [halive] at hworker
  have hwaiting : k.backlog c = msg :: rest := (congrFun hqueue c).trans hback
  have hrest : Function.update k.backlog c rest = Function.update f.backlog c rest := by
    rw [hqueue]
  unfold Feed.apply
  cases hmsg : (spec msg).run f.state with
  | ok u s' =>
    have hrun : (box handler reader s₀).Run _ _ _ :=
      (run_of_polled hworker hwaiting (h.run_of_ok hmsg)).trans (run_of_loop rfl hstop)
    rw [List.append_nil] at hrun
    refine ⟨_, _, hrun, ?_, hrest, ?_, hstop⟩
    · show PollPlace.dequeue = if f.failed = true then _ else _
      rw [halive]
      rfl
    · exact (w.taken_message c msg _ .posted rfl).trans (congrArg (· ++ [msg]) happlied)
  | error e s' =>
    refine ⟨_, _, run_of_failure hworker hwaiting (h.run_of_error hmsg), rfl, hrest, ?_, hstop⟩
    exact (w.taken_message c msg _ (.threw e) rfl).trans (congrArg (· ++ [msg]) happlied)

/-- In a feed that is in order a message is enqueued with nothing of another
connection waiting. -/
theorem Ordered.backlog_of_inHand (h : Ordered f) {c : ℕ} {m : M} (hm : f.inHand c = some m)
    {c' : ℕ} (hc : c' ≠ c) : f.backlog c' = [] := by
  obtain ⟨c₀, hother, -⟩ := h
  have hown : c = c₀ := by
    by_contra hne
    have hnil := hother c hne
    rw [waiting, hm] at hnil
    exact absurd hnil (List.append_ne_nil_of_right_ne_nil _ (List.cons_ne_nil m []))
  exact (List.append_eq_nil_iff.mp (hother c' (hown ▸ hc))).1

/-- **A step of a feed is some of a box**, and stays calm. -/
theorem exists_reaches_step (h : Codes handler reader spec asks view) (hf : f.IsBox (seen t) k)
    (hreach : (box handler reader s₀).Reaches t (k, Monitor.unattended f.state)) {e : Event M}
    (hstep : step spec f e = some f') :
    ∃ (u : List (BoxEvent M Exception ρ)) (k' : BoxClient M Exception ρ),
      (box handler reader s₀).Reaches (t ++ u) (k', Monitor.unattended f'.state)
      ∧ f'.IsBox (seen (t ++ u)) k' ∧ (Ordered f → Ui.Calm t → Ui.Calm (t ++ u)) := by
  cases e with
  | connect =>
    obtain rfl := Option.some.inj hstep
    refine ⟨[], k, ?_⟩
    rw [List.append_nil]
    exact ⟨hreach, ⟨hf.worker, hf.queue, hf.applied, hf.unstopped⟩, fun _ hcalm => hcalm⟩
  | receive c m =>
    obtain ⟨-, rfl⟩ := step_receive hstep
    refine ⟨[], k, ?_⟩
    rw [List.append_nil]
    exact ⟨hreach, ⟨hf.worker, hf.queue, hf.applied, hf.unstopped⟩, fun _ hcalm => hcalm⟩
  | enqueue c =>
    obtain ⟨m, hm, rfl⟩ := step_enqueue hstep
    refine ⟨[.enqueued c m], _, hreach.run (Machine.Run.single (l := some _)
      (AttachStep.visible (BoxStep.enqueue c m))), ⟨hf.worker, ?_, ?_, hf.unstopped⟩, ?_⟩
    · show Function.update k.backlog c (k.backlog c ++ [m]) = _
      rw [hf.queue]
    · rw [seen_concat]
      exact hf.applied
    · intro hordered hcalm
      refine hcalm.concat (fun i msg heq j hj => ?_)
      obtain ⟨rfl, rfl⟩ := BoxEvent.enqueued.inj heq
      -- what thread `j` put on the queue has all been taken off it
      obtain ⟨⟨k', a⟩, hspec, hk, -⟩ := (h.refines s₀).reaches hreach
      obtain rfl : k = k' := hk
      rw [queueKept_of_reaches hspec j, hf.queue, hordered.backlog_of_inHand hm hj,
        List.append_nil]
  | dequeue c =>
    obtain ⟨us, k', hrun, hf'⟩ := exists_run_dequeue s₀ h hf hstep
    refine ⟨us.map .own, k', hreach.run hrun, ?_, fun _ hcalm => hcalm.append_own us⟩
    rw [seen, List.foldl_append]
    exact hf'

/-- A session that has not connected is a box whose worker has begun to poll. -/
theorem exists_reaches_init : ∃ k : BoxClient M Exception ρ,
    (box handler reader s₀).Reaches [] (k, Monitor.unattended s₀)
      ∧ (init s₀).IsBox (seen []) k :=
  ⟨_, ⟨(.init, Monitor.unattended s₀), ⟨rfl, rfl⟩, run_of_loop rfl rfl⟩, rfl, rfl, rfl, rfl⟩

theorem exists_reaches_more (h : Codes handler reader spec asks view) (hf : f.IsBox (seen t) k)
    (hreach : (box handler reader s₀).Reaches t (k, Monitor.unattended f.state))
    {es : List (Event M)} (hrun : run spec f es = some f') :
    ∃ (u : List (BoxEvent M Exception ρ)) (k' : BoxClient M Exception ρ),
      (box handler reader s₀).Reaches (t ++ u) (k', Monitor.unattended f'.state)
      ∧ f'.IsBox (seen (t ++ u)) k' := by
  induction es generalizing f t k with
  | nil =>
    obtain rfl := Option.some.inj hrun
    refine ⟨[], k, ?_⟩
    rw [List.append_nil]
    exact ⟨hreach, hf⟩
  | cons e es ih =>
    obtain ⟨f₁, hstep, hmore⟩ := Option.bind_eq_some_iff.mp hrun
    obtain ⟨u, k₁, hreach₁, hf₁, -⟩ := exists_reaches_step h hf hreach hstep
    obtain ⟨u', k', hreach', hf'⟩ := ih hf₁ hreach₁ hmore
    rw [List.append_assoc] at hreach' hf'
    exact ⟨u ++ u', k', hreach', hf'⟩

/-- **A run of a feed is one of a box**, with the same messages waiting for
each connection and the same ones taken. -/
theorem exists_reaches_run (h : Codes handler reader spec asks view) {es : List (Event M)}
    (hrun : run spec (init s₀) es = some f) :
    ∃ (t : List (BoxEvent M Exception ρ)) (k : BoxClient M Exception ρ),
      (box handler reader s₀).Reaches t (k, Monitor.unattended f.state)
      ∧ f.IsBox (seen t) k := by
  obtain ⟨k₀, hreach₀, hbox₀⟩ := exists_reaches_init
  obtain ⟨u, k, hreach, hbox⟩ := exists_reaches_more h hbox₀ hreach₀ hrun
  exact ⟨[] ++ u, k, hreach, hbox⟩

/-- **A run whose receipts are calm is one of a box with a calm queue.** -/
theorem CalmlyReached.exists_reaches (h : Codes handler reader spec asks view)
    (hf : CalmlyReached spec s₀ f) :
    ∃ (t : List (BoxEvent M Exception ρ)) (k : BoxClient M Exception ρ),
      (box handler reader s₀).Reaches t (k, Monitor.unattended f.state) ∧ f.IsBox (seen t) k
      ∧ Ui.Calm t := by
  induction hf with
  | init =>
    obtain ⟨k, hreach, hbox⟩ := exists_reaches_init
    exact ⟨[], k, hreach, hbox, (calm_atOnce []).1⟩
  | step hcalmly _ hstep ih =>
    obtain ⟨t, k, hreach, hbox, hcalm⟩ := ih
    obtain ⟨u, k', hreach', hbox', hstays⟩ := exists_reaches_step h hbox hreach hstep
    exact ⟨t ++ u, k', hreach', hbox', hstays hcalmly.ordered hcalm⟩

end Reconnect

/-! ## A worker and a reader at the book -/

namespace Core

open Fix EarlyExit Binance Transition Ui OrderBook

variable {δ : Type} {toUint64 : δ → UInt64 → UInt64} {clear : Bool}
  {handler : MarketMessageVariant δ → Resumption OrderBook (Except Exception Unit)}
  {reader : Resumption OrderBook (List BidAsk)} {b₀ b : OrderBook}
  {t : List (BoxEvent (MarketMessageVariant δ) Exception (List BidAsk))}
  {w : Seen (MarketMessageVariant δ) Exception (List BidAsk)}
  {k : BoxClient (MarketMessageVariant δ) Exception (List BidAsk)} {s s' : System δ}

/-- Where in `poll_queue` the order-book worker is; a message it applies has yet
to be handed over. -/
def WorkerState.place : WorkerState δ → PollPlace (MarketMessageVariant δ) Exception
  | .idle => .dequeue
  | .dequeued msg => .taken msg
  | .running msg _ => .taken msg
  | .failed _ => .failed

/-- **The threads at a book, as a box** with no one in its lock: it holds the
book between two messages (`b`), from which what is left of the message at
hand makes what the whole of it makes. -/
structure System.IsBox (toUint64 : δ → UInt64 → UInt64) (clear : Bool) (s : System δ)
    (b : OrderBook) (w : Seen (MarketMessageVariant δ) Exception (List BidAsk))
    (k : BoxClient (MarketMessageVariant δ) Exception (List BidAsk)) : Prop where
  worker : k.worker = s.worker.place
  running : ∀ msg pc, s.worker = .running msg pc → s.holder = some .worker
    ∧ (finish toUint64 clear pc).run s.book = (applyMessage toUint64 clear msg).run b
  resting : (∀ msg pc, s.worker ≠ .running msg pc) → s.book = b
  failed : ∀ e, s.worker = .failed e → w.threw = some e
  elsewhere : s.reader = .idle → k.ui = .elsewhere
  reading : ∀ rows n q, s.reader = .reading rows n q →
    k.ui = .drawing ∧ s.holder = some .ui ∧ rows <+: b.toVector
  queue : k.backlog 0 = s.queue
  received : w.enqueued 0 = s.received
  views : w.drawings.map Drawing.drawn = s.views.map View.rows
  unstopped : k.stopRequested = false

namespace System

/-- While a reader reads, the book is the one between two messages. -/
theorem IsBox.book_of_ui (hs : s.IsBox toUint64 clear b w k) (hholder : s.holder ≠ some .worker) :
    s.book = b :=
  hs.resting (fun msg pc hrun => hholder (hs.running msg pc hrun).1)

/-- A reader is not at the book while the worker is. -/
theorem IsBox.not_reading (hs : s.IsBox toUint64 clear b w k) (hholder : s.holder ≠ some .ui)
    (rows : List BidAsk) (n : ℕ) (q : Bool) : s.reader ≠ .reading rows n q :=
  fun hread => hholder (hs.reading rows n q hread).2.1

/-- The worker takes the lock to hand over a message. -/
theorem IsBox.lockWorker (hs : s.IsBox toUint64 clear b w k) {msg : MarketMessageVariant δ}
    (hdeq : s.worker = .dequeued msg) (hfree : s.holder = none) :
    IsBox toUint64 clear { s with worker := .running msg (.started msg), holder := some .worker }
      b w k := by
  have hbook := hs.book_of_ui (by rw [hfree]; nofun)
  refine { hs with
    worker := hs.worker.trans (by rw [hdeq]; rfl), running := ?_, failed := nofun
    resting := fun hno => absurd rfl (hno _ _), reading := fun rows n q hr => ?_ }
  · rintro msg' pc hrun
    obtain ⟨rfl, rfl⟩ := WorkerState.running.inj hrun
    refine ⟨rfl, ?_⟩
    rw [hbook]
    rfl
  · exact absurd hr (hs.not_reading (by rw [hfree]; nofun) rows n q)

/-- A step of the function leaves less of it to run. -/
theorem IsBox.advance (hs : s.IsBox toUint64 clear b w k) {msg : MarketMessageVariant δ}
    {pc pc' : Pc δ} {b' : OrderBook} (hrun : s.worker = .running msg pc)
    (hadv : (Core.advance toUint64 clear pc).run s.book = .ok pc' b') :
    IsBox toUint64 clear { s with worker := .running msg pc', book := b' } b w k := by
  obtain ⟨hholder, hfin⟩ := hs.running _ _ hrun
  refine { hs with
    worker := hs.worker.trans (by rw [hrun]; rfl), running := ?_, failed := nofun
    resting := fun hno => absurd rfl (hno _ _) }
  intro msg' pc₁ hrun'
  obtain ⟨rfl, rfl⟩ := WorkerState.running.inj hrun'
  refine ⟨hholder, ?_⟩
  rw [← hfin, finish_eq toUint64 clear pc, EStateM.run_bind, hadv]

/-- One row more is one of the book between two messages. -/
theorem IsBox.readRow (hs : s.IsBox toUint64 clear b w k) {rows : List BidAsk} {n : ℕ}
    {q : Bool} {r : BidAsk} (hread : s.reader = .reading rows n q)
    (hrow : rowAt s.book rows.length = some r) :
    IsBox toUint64 clear { s with reader := .reading (rows ++ [r]) n q } b w k := by
  obtain ⟨hui, hholder, hrows⟩ := hs.reading _ _ _ hread
  rw [hs.book_of_ui (by rw [hholder]; nofun)] at hrow
  refine { hs with elsewhere := nofun, reading := fun rows' n' q' hr => ?_ }
  obtain ⟨rfl, rfl, rfl⟩ := ReaderState.reading.inj hr
  exact ⟨hui, hholder, prefix_concat hrows hrow⟩

/-- A message that is received is put on the queue. -/
theorem IsBox.onMessage (hs : s.IsBox toUint64 clear b w k) (msg : MarketMessageVariant δ) :
    IsBox toUint64 clear { s with received := s.received ++ [msg], queue := s.queue ++ [msg] } b
      (w.note (.enqueued 0 msg))
      { k with backlog := Function.update k.backlog 0 (k.backlog 0 ++ [msg]) } := by
  refine { hs with queue := ?_, received := ?_ }
  · show Function.update k.backlog 0 (k.backlog 0 ++ [msg]) 0 = s.queue ++ [msg]
    rw [Function.update_self, hs.queue]
  · show Function.update w.enqueued 0 (w.enqueued 0 ++ [msg]) 0 = s.received ++ [msg]
    rw [Function.update_self, hs.received]

/-- The worker takes a message off the queue. -/
theorem IsBox.dequeue (hs : s.IsBox toUint64 clear b w k) (hidle : s.worker = .idle)
    {msg : MarketMessageVariant δ} {rest : List (MarketMessageVariant δ)} :
    IsBox toUint64 clear { s with queue := rest, worker := .dequeued msg } b
      (w.note (.own (.dequeued 0 msg)))
      { k with backlog := Function.update k.backlog 0 rest, worker := .taken msg } := by
  have hrest : Function.update k.backlog 0 rest 0 = rest := Function.update_self _ _ _
  refine { hs with
    worker := rfl, running := by rintro _ _ ⟨⟩, failed := nofun, queue := hrest
    resting := fun _ => hs.resting (fun msg pc hrun => ?_) }
  rw [hidle] at hrun
  cases hrun

/-- The function has returned: the worker has handed over the message, and polls
again. -/
theorem IsBox.unlockWorker (hs : s.IsBox toUint64 clear b w k) {msg : MarketMessageVariant δ}
    (hrun : s.worker = .running msg .finished) :
    IsBox toUint64 clear { s with worker := .idle, holder := none } s.book
      (w.note (.own .posted)) { k with worker := .dequeue, backoff := .initial } := by
  have hholder := (hs.running _ _ hrun).1
  exact { hs with
    worker := rfl, running := by rintro _ _ ⟨⟩, failed := nofun, resting := fun _ => rfl
    reading := fun rows n q hr => absurd hr (hs.not_reading (by rw [hholder]; nofun) rows n q) }

/-- It has thrown. -/
theorem IsBox.throw (hs : s.IsBox toUint64 clear b w k) {msg : MarketMessageVariant δ} {pc : Pc δ}
    (hrun : s.worker = .running msg pc) (e : Exception) (b' : OrderBook) :
    IsBox toUint64 clear { s with worker := .failed e, book := b', holder := none } b'
      (w.note (.own (.threw e))) { k with worker := .failed } := by
  have hholder := (hs.running _ _ hrun).1
  refine { hs with
    worker := rfl, running := by rintro _ _ ⟨⟩, failed := ?_, resting := fun _ => rfl
    reading := fun rows n q hr => absurd hr (hs.not_reading (by rw [hholder]; nofun) rows n q) }
  rintro e' ⟨⟩
  rfl

/-- The UI thread takes the lock to draw the book. -/
theorem IsBox.lockReader (hs : s.IsBox toUint64 clear b w k) (hfree : s.holder = none) :
    IsBox toUint64 clear
      { s with reader := .reading [] s.received.length s.quiet, holder := some .ui } b
      (w.note (.own .drawing)) { k with ui := .drawing } := by
  refine { hs with running := fun msg pc hrun => ?_, elsewhere := nofun, reading := ?_ }
  · have hholder := (hs.running msg pc hrun).1
    rw [hfree] at hholder
    cases hholder
  · rintro rows n q hr
    obtain ⟨rfl, rfl, rfl⟩ := ReaderState.reading.inj hr
    exact ⟨rfl, rfl, List.nil_prefix⟩

/-- It has read the whole of it. -/
theorem IsBox.unlockReader (hs : s.IsBox toUint64 clear b w k) {rows : List BidAsk} {n : ℕ}
    {q : Bool} (hread : s.reader = .reading rows n q) (hrow : rowAt s.book rows.length = none) :
    IsBox toUint64 clear
      { s with
        reader := .idle, holder := none
        views := s.views ++ [⟨rows, n, q, s.received.length, s.quiet⟩] } b
      (w.note (.own (.drawn b.toVector))) { k with ui := .elsewhere } := by
  obtain ⟨-, hholder, hrows⟩ := hs.reading _ _ _ hread
  have hnot : s.holder ≠ some .worker := by
    rw [hholder]
    nofun
  rw [hs.book_of_ui hnot] at hrow
  refine { hs with
    running := fun msg pc hrun => absurd (hs.running msg pc hrun).1 hnot
    elsewhere := fun _ => rfl, reading := nofun, views := ?_ }
  show (w.drawings ++ [_]).map Drawing.drawn = (s.views ++ [_]).map View.rows
  rw [List.map_append, List.map_append, hs.views]
  exact congrArg (fun r => s.views.map View.rows ++ [r]) (eq_of_rowAt_none hrows hrow).symm

/-- **A step of the threads at a book is some of a box.** -/
theorem exists_run_step (b₀ : OrderBook)
    (h : Codes handler reader (applyMessage toUint64 clear) Resumption.Silent toVector)
    (hs : s.IsBox toUint64 clear b w k) (hstep : Step toUint64 clear s s') :
    ∃ (u : List (BoxEvent (MarketMessageVariant δ) Exception (List BidAsk))) (b' : OrderBook)
      (k' : BoxClient (MarketMessageVariant δ) Exception (List BidAsk)),
      (box handler reader b₀).Run (k, Monitor.unattended b) u (k', Monitor.unattended b')
      ∧ s'.IsBox toUint64 clear b' (u.foldl Seen.note w) k' := by
  cases hstep with
  | onMessage msg =>
    exact ⟨[.enqueued 0 msg], b, _, Machine.Run.single (l := some _)
      (AttachStep.visible (BoxStep.enqueue 0 msg)), hs.onMessage msg⟩
  | @dequeue msg rest hidle hqueue =>
    have hworker : k.worker = .dequeue := hs.worker.trans (congrArg WorkerState.place hidle)
    exact ⟨[.own (.dequeued 0 msg)], b, _, run_of_dequeued hworker (hs.queue.trans hqueue),
      hs.dequeue hidle⟩
  | lockWorker hdeq hfree => exact ⟨[], b, k, Machine.Run.refl, hs.lockWorker hdeq hfree⟩
  | advance hrun hadv => exact ⟨[], b, k, Machine.Run.refl, hs.advance hrun hadv⟩
  | @throw msg pc e b' hrun hthrow =>
    have hworker : k.worker = .taken msg := hs.worker.trans (congrArg WorkerState.place hrun)
    have hmsg : (applyMessage toUint64 clear msg).run b = .error e b' := by
      rw [← (hs.running _ _ hrun).2, finish_eq, EStateM.run_bind, hthrow]
    have htold : (handler msg).told b = 0 := (h.handler msg b).2
    have hthrown : (box handler reader b₀).Run _ _ _ := run_of_thrown hworker (h.run_of_error hmsg)
    rw [htold] at hthrown
    exact ⟨[.own (.threw e)], b', _, hthrown, hs.throw hrun e b'⟩
  | @unlockWorker msg hrun =>
    have hworker : k.worker = .taken msg := hs.worker.trans (congrArg WorkerState.place hrun)
    have hmsg : (applyMessage toUint64 clear msg).run b = .ok () s.book :=
      (hs.running _ _ hrun).2.symm
    have htold : (handler msg).told b = 0 := (h.handler msg b).2
    have hhanded : (box handler reader b₀).Run _ _ _ := run_of_taken hworker (h.run_of_ok hmsg)
    rw [htold] at hhanded
    exact ⟨[.own .posted], s.book, _, hhanded.trans (run_of_loop rfl hs.unstopped),
      hs.unlockWorker hrun⟩
  | lockReader hidle hfree =>
    exact ⟨[.own .drawing], b, _, Machine.Run.single (l := some _)
      (AttachStep.visible (BoxStep.draw (hs.elsewhere hidle))), hs.lockReader hfree⟩
  | readRow hread hrow => exact ⟨[], b, k, Machine.Run.refl, hs.readRow hread hrow⟩
  | unlockReader hread hrow =>
    exact ⟨[.own (.drawn b.toVector)], b, _, run_of_copy (hs.reading _ _ _ hread).1 (h.reader b)
      (h.quiet b), hs.unlockReader hread hrow⟩

/-- **What a worker and a reader at a book do is what a box can do**: with the
same messages put on its queue, and each reading what it draws. -/
theorem exists_reaches
    (h : Codes handler reader (applyMessage toUint64 clear) Resumption.Silent toVector)
    (hreach : Relation.ReflTransGen (Step toUint64 clear) (System.init b₀) s) :
    ∃ (t : List (BoxEvent (MarketMessageVariant δ) Exception (List BidAsk))) (b : OrderBook)
      (k : BoxClient (MarketMessageVariant δ) Exception (List BidAsk)),
      (box handler reader b₀).Reaches t (k, Monitor.unattended b)
      ∧ s.IsBox toUint64 clear b (seen t) k := by
  induction hreach with
  | refl =>
    refine ⟨[], b₀, _, ⟨(.init, Monitor.unattended b₀), ⟨rfl, rfl⟩, run_of_loop rfl rfl⟩,
      rfl, nofun, fun _ => rfl, nofun, fun _ => rfl, nofun, rfl, rfl, rfl, rfl⟩
  | tail _ hstep ih =>
    obtain ⟨t, b, k, hreach, hs⟩ := ih
    obtain ⟨u, b', k', hrun, hs'⟩ := exists_run_step b₀ h hs hstep
    refine ⟨t ++ u, b', k', hreach.run hrun, ?_⟩
    rw [seen, List.foldl_append]
    exact hs'

end System

end Core
