import Trader.Box

set_option autoImplicit false

/-!
# What a box can do

Runs of a box that no one interferes with: the worker polls, takes a message
and hands it over, the handler ends or throws, the UI thread copies the object
and draws it. Runs are put together of these where it has to be shown that
something is possible.
-/

namespace Ui

open Fix EarlyExit Transition

variable {M ε ρ σ : Type} {handler : M → Resumption σ (Except ε Unit)} {reader : Resumption σ ρ}
  {s₀ s s' : σ} {k : BoxClient M ε ρ}

/-- What is seen of a handler that asks for `n` redraws. -/
def postedWithin (n : ℕ) : List (BoxAct M ε ρ) := List.replicate n .postedInside

theorem filterMap_boxSee (n : ℕ) (i : BoxThread) :
    (List.replicate n (.told i : Monitor.Call BoxThread (BoxOp M) (BoxReply ε ρ))).filterMap boxSee
      = (postedWithin n : List (BoxAct M ε ρ)).map .own := by
  have hsee : (boxSee (.told i) : Option (BoxEvent M ε ρ)) = some (.own .postedInside) := rfl
  rw [postedWithin, List.map_replicate, List.filterMap_replicate_of_some hsee]

/-- What the handler does in the lock, it does in the box. -/
theorem run_of_worker {c c' : Monitor.Locked BoxThread σ (BoxOp M) (BoxReply ε ρ)} {n : ℕ}
    (hw : k.worker = .handling)
    (h : (Monitor.locked BoxThread (boxCode handler reader) s₀).Run c
      (List.replicate n (.told .worker)) c') :
    (box handler reader s₀).Run (k, c) ((postedWithin n).map .own) (k, c') := by
  have hrun : (box handler reader s₀).Run (k, c) _ (k, c') :=
    run_attach_of_object h (fun x hx => (List.eq_of_mem_replicate hx) ▸ BoxStep.told hw)
  rwa [filterMap_boxSee] at hrun

theorem mem_postedWithin {n : ℕ} {act : BoxAct M ε ρ} (h : act ∈ postedWithin n) :
    act = .postedInside :=
  List.eq_of_mem_replicate h

/-- **The worker, with a message, hands it over**, and the handler ends or
throws. -/
theorem run_of_handled {k' : BoxClient M ε ρ} {msg : M} {r : Except ε Unit}
    (hw : k.worker = .taken msg) (hmsg : (handler msg).run s = (r, s'))
    (hret : BoxStep { k with worker := .handling } (some (.inr (.ret .worker (.handled r)))) k') :
    (box handler reader s₀).Run (k, Monitor.unattended s)
      ((postedWithin ((handler msg).told s)).map .own) (k', Monitor.unattended s') := by
  have hrun : (box handler reader s₀).Run _ _ _ :=
    Monitor.run_of_operation (boxCode handler reader) s₀ (boxClient M ε ρ) (BoxStep.handle hw)
      (fun _ => BoxStep.told rfl) hret ⟨rfl, rfl⟩ (by rw [boxCode, Resumption.run_map, hmsg])
  rwa [filterMap_boxSee, boxCode, Resumption.told_map] at hrun

/-- What is seen of a message that is taken and handled, with `n` redraws asked
for by the handler. -/
def handledOnce (c : ℕ) (msg : M) (n : ℕ) : List (BoxAct M ε ρ) :=
  .dequeued c msg :: postedWithin n ++ [.posted]

/-- The handler ends, and the worker asks for a redraw. -/
theorem run_of_taken {msg : M} (hw : k.worker = .taken msg)
    (hmsg : (handler msg).run s = (.ok (), s')) :
    (box handler reader s₀).Run (k, Monitor.unattended s)
      ((postedWithin ((handler msg).told s) ++ [BoxAct.posted]).map .own)
      ({ k with worker := .loop, backoff := .initial }, Monitor.unattended s') := by
  rw [List.map_append]
  exact (run_of_handled hw hmsg (BoxStep.handled rfl)).tail (l := some _)
    (AttachStep.visible (BoxStep.post rfl))

/-- The handler throws, and the worker keeps the exception. -/
theorem run_of_thrown {msg : M} {e : ε} (hw : k.worker = .taken msg)
    (hmsg : (handler msg).run s = (.error e, s')) :
    (box handler reader s₀).Run (k, Monitor.unattended s)
      ((postedWithin ((handler msg).told s) ++ [BoxAct.threw e]).map .own)
      ({ k with worker := .failed }, Monitor.unattended s') := by
  rw [List.map_append]
  exact (run_of_handled hw hmsg (BoxStep.threw rfl)).tail (l := some _)
    (AttachStep.visible (BoxStep.keepException rfl))

theorem run_of_dequeued {locked : Monitor.Locked BoxThread σ (BoxOp M) (BoxReply ε ρ)} {c : ℕ}
    {msg : M} {rest : List M} (hw : k.worker = .dequeue) (hback : k.backlog c = msg :: rest) :
    (box handler reader s₀).Run (k, locked) [.own (.dequeued c msg)]
      ({ k with backlog := Function.update k.backlog c rest, worker := .taken msg }, locked) :=
  Machine.Run.single (l := some _) (AttachStep.visible (BoxStep.dequeue hw hback))

/-- The worker, polling, takes a message and hands it over. -/
theorem run_of_polled {c : ℕ} {msg : M} {rest : List M} (hw : k.worker = .dequeue)
    (hback : k.backlog c = msg :: rest) (hmsg : (handler msg).run s = (.ok (), s')) :
    (box handler reader s₀).Run (k, Monitor.unattended s)
      ((handledOnce c msg ((handler msg).told s)).map .own)
      ({ k with backlog := Function.update k.backlog c rest, worker := .loop, backoff := .initial },
        Monitor.unattended s') :=
  (run_of_dequeued hw hback).trans (run_of_taken (k := { k with
    backlog := Function.update k.backlog c rest, worker := .taken msg }) rfl hmsg)

/-- The worker, polling, takes a message on which the handler throws. -/
theorem run_of_failure {c : ℕ} {msg : M} {rest : List M} {e : ε} (hw : k.worker = .dequeue)
    (hback : k.backlog c = msg :: rest) (hmsg : (handler msg).run s = (.error e, s')) :
    (box handler reader s₀).Run (k, Monitor.unattended s)
      ((BoxAct.dequeued c msg :: postedWithin ((handler msg).told s) ++ [BoxAct.threw e]).map .own)
      ({ k with backlog := Function.update k.backlog c rest, worker := .failed },
        Monitor.unattended s') :=
  (run_of_dequeued hw hback).trans (run_of_thrown (k := { k with
    backlog := Function.update k.backlog c rest, worker := .taken msg }) rfl hmsg)

/-- From the head of the loop, while no stop is requested, the worker polls. -/
theorem run_of_loop {c : Monitor.Locked BoxThread σ (BoxOp M) (BoxReply ε ρ)}
    (hw : k.worker = .loop) (hstop : k.stopRequested = false) :
    (box handler reader s₀).Run (k, c) [] ({ k with worker := .dequeue }, c) :=
  Machine.Run.refl.tail (l := none) (AttachStep.silent (BoxStep.loop hw hstop))

/-- From the head of the loop. -/
theorem run_of_message {c : ℕ} {msg : M} {rest : List M} (hw : k.worker = .loop)
    (hstop : k.stopRequested = false) (hback : k.backlog c = msg :: rest)
    (hmsg : (handler msg).run s = (.ok (), s')) :
    (box handler reader s₀).Run (k, Monitor.unattended s)
      ((handledOnce c msg ((handler msg).told s)).map .own)
      ({ k with backlog := Function.update k.backlog c rest, backoff := .initial },
        Monitor.unattended s') := by
  have hmore : (box handler reader s₀).Run _ _ _ := (run_of_loop hw hstop).trans
    (run_of_polled (k := { k with worker := .dequeue }) rfl hback hmsg)
  rw [← hw] at hmore
  exact hmore

/-- The UI thread, at the copy, makes it and draws what it copied. -/
theorem run_of_copy {r : ρ} (hui : k.ui = .drawing) (hread : reader.run s = (r, s))
    (hquiet : reader.told s = 0) :
    (box handler reader s₀).Run (k, Monitor.unattended s) ([.drawn r].map .own)
      ({ k with ui := .elsewhere }, Monitor.unattended s) := by
  have htold : (boxCode handler reader .copy).told s = 0 :=
    (Resumption.told_map _ reader s).trans hquiet
  have hcopy : (box handler reader s₀).Run _ _ _ :=
    Monitor.run_of_operation (boxCode handler reader) s₀ (boxClient M ε ρ)
      (BoxStep.copy hui) (absurd htold) (BoxStep.copied rfl) ⟨rfl, rfl⟩
      (by rw [boxCode, Resumption.run_map, hread])
  rw [htold] at hcopy
  exact hcopy.tail (l := some _) (AttachStep.visible (BoxStep.drawn rfl))

/-- The UI thread draws the object. -/
theorem run_of_drawing {r : ρ} (hui : k.ui = .elsewhere) (hread : reader.run s = (r, s))
    (hquiet : reader.told s = 0) :
    (box handler reader s₀).Run (k, Monitor.unattended s)
      ([.drawing, .drawn r].map .own) (k, Monitor.unattended s) := by
  have hdraw := (Machine.Run.refl (S := box handler reader s₀)
    (s := (k, Monitor.unattended s))).tail (l := some _) (AttachStep.visible (BoxStep.draw hui))
  have hrun := hdraw.trans (run_of_copy (k := { k with ui := .drawing }) rfl hread hquiet)
  rw [← hui] at hrun
  exact hrun

/-- A box that thread `c` has put its first message on the queue of. -/
def BoxClient.offered (c : ℕ) (msg : M) : BoxClient M ε ρ :=
  { BoxClient.init with backlog := Function.update (fun _ => []) c [msg] }

theorem BoxClient.backlog_offered (c : ℕ) (msg : M) :
    (BoxClient.offered c msg : BoxClient M ε ρ).backlog c = [msg] := by
  show Function.update (fun _ => []) c [msg] c = [msg]
  rw [Function.update_self]

/-- It is the only one. -/
theorem BoxClient.update_offered (c : ℕ) (msg : M) :
    Function.update (BoxClient.offered c msg : BoxClient M ε ρ).backlog c [] = fun _ => [] := by
  show Function.update (Function.update (fun _ => []) c [msg]) c [] = _
  rw [Function.update_idem, Function.update_eq_self]

theorem step_offered (c : ℕ) (msg : M) :
    (box handler reader s₀).step (.init, Monitor.unattended s) (some (.enqueued c msg))
      (.offered c msg, Monitor.unattended s) := by
  have hstep := BoxStep.enqueue (k := (BoxClient.init : BoxClient M ε ρ)) c msg
  exact AttachStep.visible hstep

/-- The worker goes to take it. -/
theorem run_of_polling (c : ℕ) (msg : M) :
    (box handler reader s₀).Run (.init, Monitor.unattended s) [.enqueued c msg]
      ({ (BoxClient.offered c msg : BoxClient M ε ρ) with worker := .dequeue },
        Monitor.unattended s) :=
  (Machine.Run.single (step_offered c msg)).trans (run_of_loop rfl rfl)

/-- and takes it, which leaves the queue empty. -/
theorem run_of_first (c : ℕ) (msg : M) :
    (box handler reader s₀).Run (.init, Monitor.unattended s)
      [.enqueued c msg, .own (.dequeued c msg)]
      (⟨fun _ => [], false, .taken msg, .initial, .elsewhere⟩, Monitor.unattended s) := by
  have hback : (BoxClient.offered c msg : BoxClient M ε ρ).backlog c = [msg] :=
    BoxClient.backlog_offered c msg
  have hrun : (box handler reader s₀).Run (.init, Monitor.unattended s) _ _ :=
    (run_of_polling c msg).trans (run_of_dequeued rfl hback)
  rw [BoxClient.update_offered] at hrun
  exact hrun

/-- **A message can be taken, handled and drawn.** -/
theorem Codes.run_of_offered {spec : M → EStateM ε σ Unit} {asks : ℕ → σ → σ → Prop}
    {view : σ → ρ} (h : Codes handler reader spec asks view) (c : ℕ) {msg : M} {n : ℕ}
    (hmsg : (spec msg).run s₀ = .ok () s') (hn : (handler msg).told s₀ = n) :
    ∃ q, (box handler reader s₀).Run (.offered c msg, Monitor.unattended s₀)
      ((handledOnce c msg n ++ [BoxAct.drawing, .drawn (view s')]).map .own) q := by
  rw [List.map_append, ← hn]
  exact ⟨_, (run_of_message rfl rfl (BoxClient.backlog_offered c msg) (h.run_of_ok hmsg)).trans
    (run_of_drawing rfl (h.reader s') (h.quiet s'))⟩

end Ui
