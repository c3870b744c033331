import Mathlib.Logic.Function.Basic
import Trader.BookHistory

set_option autoImplicit false

/-!
# The order of messages across reconnects

Each connection of the price session has a thread of its own, and the queue
to the worker keeps the order of what one thread enqueues but none between
threads: `try_dequeue` takes the next item of any of them. So the order in
which messages were received survives only while one connection has
something waiting. A backlog of an old connection, met by the snapshot that
opens the new one, may come out after it.

Messages are applied in the order received on every run in which each is
received with nothing of another connection still waiting
(`order_maintained_of_calm`), and each receipt that breaks this can be
followed by a dequeue out of order (`order_lost_of_not_calm`).

A message is taken and applied in one step here. A box does whatever such a
feed does, in the steps it takes (`exists_reaches_run`).
-/

namespace Reconnect

open Fix Binance EarlyExit

variable {M σ : Type}

/-- The price session and the worker. `received` and `applied` record what
has happened. -/
structure Feed (M σ : Type) where
  /-- How many connections there have been; each has a thread. -/
  connections : ℕ
  /-- The message the thread of a connection is in `onMessage` with. -/
  inHand : ℕ → Option M
  /-- What the thread of a connection has enqueued and no one dequeued. -/
  backlog : ℕ → List M
  received : List M
  applied : List M
  /-- What the messages are applied to. -/
  state : σ
  /-- Whether an application has thrown, which ends the worker. -/
  failed : Bool

/-- What can happen next. -/
inductive Event (M : Type) where
  /-- The session connects, again or for the first time. -/
  | connect
  /-- `FixApp::onMessage` is called on the thread of a connection. -/
  | receive (c : ℕ) (m : M)
  /-- Its `order_queue_.enqueue` takes effect. -/
  | enqueue (c : ℕ)
  /-- `try_dequeue` takes the next item of a thread, and it is applied. -/
  | dequeue (c : ℕ)

/-- A session that has not connected yet. -/
def init (s : σ) : Feed M σ := ⟨0, fun _ => none, fun _ => [], [], [], s, false⟩

/-- A message is applied. -/
def Feed.apply (handler : M → EStateM Exception σ Unit) (m : M) (f : Feed M σ) : Feed M σ :=
  match (handler m).run f.state with
  | .ok _ s => { f with applied := f.applied ++ [m], state := s }
  | .error _ s => { f with applied := f.applied ++ [m], state := s, failed := true }

/-- **One step**, where it is possible. -/
def step (handler : M → EStateM Exception σ Unit) (f : Feed M σ) :
    Event M → Option (Feed M σ)
  | .connect => some { f with connections := f.connections + 1 }
  | .receive c m =>
    match decide (c < f.connections), f.inHand c with
    | true, none => some { f with
        inHand := Function.update f.inHand c (some m), received := f.received ++ [m] }
    | _, _ => none
  | .enqueue c =>
    match f.inHand c with
    | some m => some { f with
        inHand := Function.update f.inHand c none
        backlog := Function.update f.backlog c (f.backlog c ++ [m]) }
    | none => none
  | .dequeue c =>
    match f.failed, f.backlog c with
    | false, m :: rest =>
      some (Feed.apply handler m { f with backlog := Function.update f.backlog c rest })
    | _, _ => none

/-- A sequence of steps. -/
def run (handler : M → EStateM Exception σ Unit) (f : Feed M σ) :
    List (Event M) → Option (Feed M σ)
  | [] => some f
  | e :: es => (step handler f e).bind (fun f' => run handler f' es)

/-- What was received on a connection and is still waiting. -/
def waiting (f : Feed M σ) (c : ℕ) : List M := f.backlog c ++ (f.inHand c).toList

/-- **A calm receipt**: nothing of another connection is waiting. -/
def Calm (f : Feed M σ) : Event M → Prop
  | .receive c _ => ∀ c', c' ≠ c → waiting f c' = []
  | _ => True

/-- The states reached by runs whose receipts are all calm. -/
inductive CalmlyReached (handler : M → EStateM Exception σ Unit) (s : σ) : Feed M σ → Prop
  | init : CalmlyReached handler s (init s)
  | step {f f' : Feed M σ} {e : Event M} : CalmlyReached handler s f → Calm f e →
    step handler f e = some f' → CalmlyReached handler s f'

/-- **The invariant**: one connection at most has anything waiting, and what
was received is what was applied and then what it has waiting. -/
def Ordered (f : Feed M σ) : Prop :=
  ∃ c, (∀ c', c' ≠ c → waiting f c' = []) ∧ f.received = f.applied ++ waiting f c

theorem apply_eq (handler : M → EStateM Exception σ Unit) (m : M) (f : Feed M σ) :
    (f.apply handler m).backlog = f.backlog ∧ (f.apply handler m).inHand = f.inHand
      ∧ (f.apply handler m).received = f.received
      ∧ (f.apply handler m).applied = f.applied ++ [m] := by
  unfold Feed.apply
  cases (handler m).run f.state with
  | ok u s => exact ⟨rfl, rfl, rfl, rfl⟩
  | error e s => exact ⟨rfl, rfl, rfl, rfl⟩

/-- A receipt finds its thread idle and leaves it with the message. -/
theorem step_receive {handler : M → EStateM Exception σ Unit} {f f' : Feed M σ} {c : ℕ} {m : M}
    (h : step handler f (.receive c m) = some f') :
    f.inHand c = none ∧ f' = { f with
      inHand := Function.update f.inHand c (some m), received := f.received ++ [m] } := by
  simp only [step] at h
  split at h
  · next _ hnone => exact ⟨hnone, (Option.some.inj h).symm⟩
  · cases h

theorem step_enqueue {handler : M → EStateM Exception σ Unit} {f f' : Feed M σ} {c : ℕ}
    (h : step handler f (.enqueue c) = some f') :
    ∃ m, f.inHand c = some m ∧ f' = { f with
      inHand := Function.update f.inHand c none
      backlog := Function.update f.backlog c (f.backlog c ++ [m]) } := by
  simp only [step] at h
  split at h
  · next m hm => exact ⟨m, hm, (Option.some.inj h).symm⟩
  · cases h

theorem step_dequeue {handler : M → EStateM Exception σ Unit} {f f' : Feed M σ} {c : ℕ}
    (h : step handler f (.dequeue c) = some f') :
    ∃ m rest, f.backlog c = m :: rest
      ∧ f' = Feed.apply handler m { f with backlog := Function.update f.backlog c rest } := by
  simp only [step] at h
  split at h
  · next m rest _ hm => exact ⟨m, rest, hm, (Option.some.inj h).symm⟩
  · cases h

/-- A worker that has failed dequeues nothing. -/
theorem failed_of_step_dequeue {handler : M → EStateM Exception σ Unit} {f f' : Feed M σ} {c : ℕ}
    (h : step handler f (.dequeue c) = some f') : f.failed = false := by
  simp only [step] at h
  split at h
  · next hfailed _ => exact hfailed
  · cases h

section Ordered

variable {handler : M → EStateM Exception σ Unit} {f f' : Feed M σ} {c₁ : ℕ}

/-- After a calm receipt the receiving connection is the one with something
waiting. -/
theorem Ordered.receive (h : Ordered f) {m : M} (hcalm : Calm f (.receive c₁ m))
    (hstep : Reconnect.step handler f (.receive c₁ m) = some f') : Ordered f' := by
  obtain ⟨c, hother, hrec⟩ := h
  obtain ⟨hidle, rfl⟩ := step_receive hstep
  refine ⟨c₁, fun c' hc' => ?_, ?_⟩
  · show f.backlog c' ++ (Function.update f.inHand c₁ (some m) c').toList = []
    rw [Function.update_of_ne hc']
    exact hcalm c' hc'
  · have hwait : waiting f c = f.backlog c₁ := by
      by_cases hc : c = c₁
      · rw [hc, waiting, hidle]
        exact List.append_nil _
      · have h₁ := hother c₁ (fun h => hc h.symm)
        rw [hcalm c hc]
        exact (List.append_eq_nil_iff.mp h₁).1.symm
    show f.received ++ [m] = f.applied
      ++ (f.backlog c₁ ++ (Function.update f.inHand c₁ (some m) c₁).toList)
    rw [hrec, hwait, Function.update_self, List.append_assoc]
    rfl

/-- What a connection has waiting does not change when its thread enqueues. -/
theorem Ordered.enqueue (h : Ordered f)
    (hstep : Reconnect.step handler f (.enqueue c₁) = some f') : Ordered f' := by
  obtain ⟨c, hother, hrec⟩ := h
  obtain ⟨m, hm, rfl⟩ := step_enqueue hstep
  have hsame : ∀ c', waiting { f with
      inHand := Function.update f.inHand c₁ none
      backlog := Function.update f.backlog c₁ (f.backlog c₁ ++ [m]) } c' = waiting f c' := by
    intro c'
    show Function.update f.backlog c₁ (f.backlog c₁ ++ [m]) c'
      ++ (Function.update f.inHand c₁ none c').toList = f.backlog c' ++ (f.inHand c').toList
    by_cases hc' : c' = c₁
    · rw [hc', Function.update_self, Function.update_self, hm]
      exact List.append_nil _
    · rw [Function.update_of_ne hc', Function.update_of_ne hc']
  exact ⟨c, fun c' hc' => (hsame c').trans (hother c' hc'), by rw [hsame c]; exact hrec⟩

/-- Only the connection with something waiting has an item to dequeue, and it
is the next one received. -/
theorem Ordered.dequeue (h : Ordered f)
    (hstep : Reconnect.step handler f (.dequeue c₁) = some f') : Ordered f' := by
  obtain ⟨c, hother, hrec⟩ := h
  obtain ⟨m, rest, hm, rfl⟩ := step_dequeue hstep
  obtain ⟨hback, hhand, hrec', happ⟩ := apply_eq handler m
    { f with backlog := Function.update f.backlog c₁ rest }
  have hc : c₁ = c := by
    by_contra hne
    have h₁ := hother c₁ hne
    rw [waiting, hm] at h₁
    cases h₁
  subst hc
  refine ⟨c₁, fun c' hc' => ?_, ?_⟩
  · rw [waiting, hback, hhand]
    show Function.update f.backlog c₁ rest c' ++ _ = []
    rw [Function.update_of_ne hc']
    exact hother c' hc'
  · rw [waiting, hback, hhand, hrec', happ]
    show f.received = f.applied ++ [m]
      ++ (Function.update f.backlog c₁ rest c₁ ++ (f.inHand c₁).toList)
    rw [hrec, waiting, hm, Function.update_self, List.append_assoc]
    rfl

/-- **One step keeps the order**, when a receipt is calm. -/
theorem Ordered.step {e : Event M} (h : Ordered f) (hcalm : Calm f e)
    (hstep : Reconnect.step handler f e = some f') : Ordered f' := by
  cases e with
  | connect =>
    obtain rfl := Option.some.inj hstep
    exact h
  | receive c₁ m => exact h.receive hcalm hstep
  | enqueue c₁ => exact h.enqueue hstep
  | dequeue c₁ => exact h.dequeue hstep

end Ordered

theorem CalmlyReached.ordered {handler : M → EStateM Exception σ Unit} {s : σ}
    {f : Feed M σ} (h : CalmlyReached handler s f) : Ordered f := by
  induction h with
  | init => exact ⟨0, fun _ _ => rfl, rfl⟩
  | step _ hcalm hstep ih => exact ih.step hcalm hstep

theorem CalmlyReached.applied_prefix_received {handler : M → EStateM Exception σ Unit}
    {s : σ} {f : Feed M σ} (h : CalmlyReached handler s f) : f.applied <+: f.received := by
  obtain ⟨c, -, hrec⟩ := h.ordered
  exact ⟨waiting f c, hrec.symm⟩

/-- **Every other receipt can lose the order**: when a new message is
received with something of another connection waiting, the worker may apply
it first. -/
theorem order_lost_of_not_calm {handler : M → EStateM Exception σ Unit} {s : σ}
    {f : Feed M σ} (h : CalmlyReached handler s f) (halive : f.failed = false) {c : ℕ} {m : M}
    (hc : c < f.connections) (hidle : f.inHand c = none) (hcalm : ¬ Calm f (.receive c m))
    (hnew : m ∉ f.received) :
    ∃ f', run handler f [.receive c m, .enqueue c, .dequeue c] = some f'
      ∧ ¬ f'.applied <+: f'.received := by
  obtain ⟨c₀, hother, hrec⟩ := h.ordered
  have hne : c ≠ c₀ := by
    rintro rfl
    exact hcalm hother
  have hempty : f.backlog c = [] := (List.append_eq_nil_iff.mp (hother c hne)).1
  have hwait : waiting f c₀ ≠ [] := by
    intro hnil
    refine hcalm (fun c' hc' => ?_)
    by_cases h₀ : c' = c₀
    · rw [h₀]
      exact hnil
    · exact hother c' h₀
  obtain ⟨w, ws, hw⟩ := List.exists_cons_of_ne_nil hwait
  let f₁ : Feed M σ := { f with
    inHand := Function.update f.inHand c (some m), received := f.received ++ [m] }
  let f₂ : Feed M σ := { f₁ with
    inHand := Function.update f₁.inHand c none
    backlog := Function.update f₁.backlog c (f₁.backlog c ++ [m]) }
  let f₃ : Feed M σ := { f₂ with
    backlog := Function.update f₂.backlog c [], failed := false }
  have hreceive : step handler f (.receive c m) = some f₁ := by
    simp only [step, hidle, decide_eq_true hc]
    rfl
  have henqueue : step handler f₁ (.enqueue c) = some f₂ := by
    have hhand : f₁.inHand c = some m := Function.update_self _ _ _
    simp only [step, hhand]
    rfl
  have hdequeue : step handler f₂ (.dequeue c) = some (f₃.apply handler m) := by
    have hback : f₂.backlog c = [m] := by
      show Function.update f.backlog c (f.backlog c ++ [m]) c = [m]
      rw [Function.update_self, hempty]
      rfl
    have hfailed : f₂.failed = false := halive
    simp only [step, hback, hfailed]
    rfl
  obtain ⟨-, -, hrec', happ⟩ := apply_eq handler m f₃
  refine ⟨f₃.apply handler m, ?_, ?_⟩
  · simp only [run, hreceive, henqueue, hdequeue, Option.bind_some]
  · rw [hrec', happ]
    show ¬ f.applied ++ [m] <+: f.received ++ [m]
    rw [hrec, hw, List.append_assoc, List.prefix_append_right_inj]
    intro hpre
    have hm : m = w := (List.cons_prefix_cons.mp hpre).1
    refine hnew ?_
    rw [hrec, hw, hm]
    exact List.mem_append_right _ List.mem_cons_self

section Book

open Core Core.OrderBook

variable {δ : Type} {toUint64 : δ → UInt64 → UInt64} {clear : Bool} {b : OrderBook}
  {f : Feed (MarketMessageVariant δ) OrderBook}

/-- The book is the fold of what has been applied. -/
theorem CalmlyReached.folded (h : CalmlyReached (applyMessage toUint64 clear) b f)
    (halive : f.failed = false) :
    (applyMessages toUint64 clear f.applied).run b = .ok () f.state := by
  induction h with
  | init => rfl
  | @step f f' e _ _ hstep ih =>
    cases e with
    | connect =>
      obtain rfl := Option.some.inj hstep
      exact ih halive
    | receive c m =>
      obtain ⟨-, rfl⟩ := step_receive hstep
      exact ih halive
    | enqueue c =>
      obtain ⟨m, -, rfl⟩ := step_enqueue hstep
      exact ih halive
    | dequeue c =>
      obtain ⟨m, rest, -, rfl⟩ := step_dequeue hstep
      unfold Feed.apply at halive ⊢
      cases hrun : (applyMessage toUint64 clear m).run f.state with
      | ok u s =>
        rw [hrun] at halive
        exact applyMessages_concat toUint64 (ih halive) hrun
      | error e s =>
        rw [hrun] at halive
        cases halive

/-- **Order is maintained across reconnects** on every run whose receipts are
calm: in every state reached, what the worker has applied is the first of
what was received, in the order received, and the book is what these
messages make. -/
theorem order_maintained_of_calm (h : CalmlyReached (applyMessage toUint64 clear) b f) :
    f.applied <+: f.received ∧ (f.failed = false →
      (applyMessages toUint64 clear f.applied).run b = .ok () f.state) :=
  ⟨h.applied_prefix_received, h.folded⟩

end Book

/-- A calm run with a reconnect: the message of the first connection is
applied before the second one receives. -/
theorem order_maintained_of_drained :
    ∃ f : Feed (MarketMessageVariant ℕ) Core.OrderBook,
      f.connections = 2 ∧ f.received.length = 2 ∧ f.applied <+: f.received := by
  let handler := Core.OrderBook.applyMessage (fun (px : ℕ) ticks => UInt64.ofNat px * ticks) false
  let msg : MarketMessageVariant ℕ := .increment (.ofGroups [])
  have hdrained : ∃ f, CalmlyReached handler Core.OrderBook.empty f
      ∧ f.connections = 2 ∧ f.received.length = 1 ∧ ∀ c, waiting f c = [] ∧ f.inHand c = none := by
    refine ⟨⟨2, Function.update (Function.update (fun _ => none) 0 (some msg)) 0 none,
      Function.update (Function.update (fun _ => []) 0 [msg]) 0 [], [msg], [msg],
      Core.OrderBook.empty, false⟩,
      .step (.step (.step (.step (.step .init (e := .connect) trivial rfl)
        (e := .receive 0 msg) (fun _ _ => rfl) rfl) (e := .enqueue 0) trivial rfl)
        (e := .dequeue 0) trivial rfl) (e := .connect) trivial rfl, rfl, rfl, fun c => ?_⟩
    by_cases hc : c = 0 <;> simp [waiting, hc]
  obtain ⟨f, hreached, hconn, hlen, hempty⟩ := hdrained
  have hstep : ∃ f', step handler f (.receive 1 msg) = some f'
      ∧ f'.connections = 2 ∧ f'.received.length = 2 := by
    simp [step, (hempty 1).2, hconn, hlen]
  obtain ⟨f', hstep, hconn', hlen'⟩ := hstep
  exact ⟨f', hconn', hlen', (order_maintained_of_calm
    (hreached.step (e := .receive 1 msg) (fun c' _ => (hempty c').1) hstep)).1⟩

/-- A run in which a second connection overtakes the backlog of the first. -/
def overtaking (m₀ m₁ : M) : List (Event M) :=
  [.connect, .receive 0 m₀, .enqueue 0, .connect, .receive 1 m₁, .enqueue 1,
    .dequeue 1, .dequeue 0]

theorem run_overtaking {handler : M → EStateM Exception σ Unit} {m₀ m₁ : M} {s s₁ s₂ : σ}
    (h₁ : (handler m₁).run s = .ok () s₁) (h₀ : (handler m₀).run s₁ = .ok () s₂) :
    ∃ f, run handler (init s) (overtaking m₀ m₁) = some f
      ∧ f.received = [m₀, m₁] ∧ f.applied = [m₁, m₀] ∧ f.state = s₂ := by
  simp [overtaking, run, step, init, Feed.apply, h₁, h₀]

/-- The backlog of one connection comes out after the snapshot that opens the
next one: the level it sets outlives the snapshot. -/
theorem backlog_applied_after_snapshot :
    ∃ (increment snapshot : MarketMessageVariant ℕ) (f : Feed (MarketMessageVariant ℕ)
        Core.OrderBook),
      run (Core.OrderBook.applyMessage (fun px ticks => UInt64.ofNat px * ticks) false)
        (init Core.OrderBook.empty) (overtaking increment snapshot) = some f
      ∧ f.received = [increment, snapshot] ∧ f.applied = [snapshot, increment]
      ∧ ¬ f.applied <+: f.received ∧ f.state.level .bid 900 = some 100000 := by
  let increment : MarketMessageVariant ℕ := .increment (.ofGroups
    [{ symbol := some "BTCUSDT".toList, mdEntryType := some (.ok '0'),
       mdUpdateAction := some (.ok '0'), mdEntryPx := some (.ok 9),
       mdEntrySize := some (.ok 1) }])
  let snapshot : MarketMessageVariant ℕ := .snapshot (.ofGroups "BTCUSDT".toList [])
  have happlied : ∃ s₁ s₂, (Core.OrderBook.applyMessage
        (fun px ticks => UInt64.ofNat px * ticks) false snapshot).run
          Core.OrderBook.empty = .ok () s₁
      ∧ (Core.OrderBook.applyMessage (fun px ticks => UInt64.ofNat px * ticks) false
          increment).run s₁ = .ok () s₂
      ∧ s₂.level .bid 900 = some 100000 := ⟨_, _, rfl, rfl, rfl⟩
  obtain ⟨s₁, s₂, h₁, h₀, hlevel⟩ := happlied
  obtain ⟨f, hrun, hreceived, happlied, hstate⟩ := run_overtaking h₁ h₀
  refine ⟨increment, snapshot, f, hrun, hreceived, happlied, ?_, hstate ▸ hlevel⟩
  rw [hreceived, happlied]
  exact fun h => absurd (List.cons_prefix_cons.mp h).1 nofun

end Reconnect
