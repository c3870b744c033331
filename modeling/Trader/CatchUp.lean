import Trader.Program

set_option autoImplicit false

/-!
# The screen can always catch up

Drawings lag behind the queue: messages wait on it, one may be in the
handler, the lock may be taken and a drawing under way may show an object
that has moved on. As long as no stop is requested and no message makes the
handler throw, none of this lasts. From every state the threads of a box can
bring themselves to, with nothing more delivered, they can go on to one in
which the object is the one after every message put on the queue
(`Codes.catchesUp`).

On the way the lock comes free, the UI thread ends its drawing and the worker
its message (`exists_goes_settled`). That leaves the box as it was
constructed, with an object that has handled what was taken; and what is
still on the queue is handled one by one from there.

The program has one UI thread for both boxes. It ends the drawing it is at
and the frame it is in, and the next frame shows everything
(`catch_up_possible`).
-/

namespace Ui

open Fix EarlyExit Binance Transition

variable {M ε ρ σ : Type}

/-- Messages that are all handled are handled up to any of them, and from
there. -/
theorem outcome_handleAll_append {spec : M → EStateM ε σ Unit} {pre rest : List M} {s₀ s : σ}
    (h : Resumption.outcome (handleAll spec (pre ++ rest)) s₀ = (.ok (), s)) :
    ∃ s₁, Resumption.outcome (handleAll spec pre) s₀ = (.ok (), s₁)
      ∧ Resumption.outcome (handleAll spec rest) s₁ = (.ok (), s) := by
  induction pre generalizing s₀ with
  | nil => exact ⟨s₀, rfl, h⟩
  | cons msg pre ih =>
    obtain ⟨u, s₁, hmsg, hmore⟩ := bind_ok_iff.mp (Resumption.run_of_outcome_ok h)
    obtain ⟨s₂, hpre, hrest⟩ := ih (Resumption.outcome_of_ok hmore)
    refine ⟨s₂, Resumption.outcome_of_ok (bind_ok_iff.mpr ⟨u, s₁, hmsg, ?_⟩), hrest⟩
    exact Resumption.run_of_outcome_ok hpre

section CatchUp

variable {handler : M → Resumption σ (Except ε Unit)} {reader : Resumption σ ρ} {s₀ : σ}

/-- What the threads of a box do of themselves, to come to an end: no stop is
requested and no drawing begun. -/
def Finishing (u : List (BoxAct M ε ρ)) : Prop := .stopRequested ∉ u ∧ .drawing ∉ u

theorem Finishing.append {u v : List (BoxAct M ε ρ)} (hu : Finishing u) (hv : Finishing v) :
    Finishing (u ++ v) :=
  ⟨fun h => (List.mem_append.mp h).elim hu.1 hv.1, fun h => (List.mem_append.mp h).elim hu.2 hv.2⟩

theorem finishing_postedWithin (n : ℕ) : Finishing (postedWithin n : List (BoxAct M ε ρ)) :=
  ⟨fun h => absurd (mem_postedWithin h) nofun, fun h => absurd (mem_postedWithin h) nofun⟩

/-- **A box goes on** from one state to another, with no message taken off the
queue, no stop requested and no drawing begun on the way. -/
def Goes (handler : M → Resumption σ (Except ε Unit)) (reader : Resumption σ ρ) (s₀ : σ)
    (q q' : BoxClient M ε ρ × Monitor.Locked BoxThread σ (BoxOp M) (BoxReply ε ρ)) : Prop :=
  (∃ u : List (BoxAct M ε ρ), (box handler reader s₀).Run q (u.map .own) q' ∧ Finishing u)
    ∧ q'.1.backlog = q.1.backlog ∧ q'.1.stopRequested = q.1.stopRequested

section Goes

variable {q q' q'' : BoxClient M ε ρ × Monitor.Locked BoxThread σ (BoxOp M) (BoxReply ε ρ)}
  {k k' : BoxClient M ε ρ} {c c' : Monitor.Locked BoxThread σ (BoxOp M) (BoxReply ε ρ)}

theorem goes_of_run {u : List (BoxAct M ε ρ)}
    (hrun : (box handler reader s₀).Run (k, c) (u.map .own) (k, c')) (hu : Finishing u) :
    Goes handler reader s₀ (k, c) (k, c') :=
  ⟨⟨u, hrun, hu⟩, rfl, rfl⟩

theorem goes_refl : Goes handler reader s₀ (k, c) (k, c) :=
  goes_of_run (u := []) Machine.Run.refl ⟨List.not_mem_nil, List.not_mem_nil⟩

theorem Goes.trans (h : Goes handler reader s₀ q q') (h' : Goes handler reader s₀ q' q'') :
    Goes handler reader s₀ q q'' := by
  obtain ⟨⟨u, hu, hfin⟩, hback, hflag⟩ := h
  obtain ⟨⟨v, hv, hfin'⟩, hback', hflag'⟩ := h'
  refine ⟨⟨u ++ v, ?_, hfin.append hfin'⟩, hback'.trans hback, hflag'.trans hflag⟩
  rw [List.map_append]
  exact hu.trans hv

theorem goes_of_visible {act : BoxAct M ε ρ} (hstep : BoxStep k (some (.inl (.own act))) k')
    (hstop : act ≠ .stopRequested) (hdrawing : act ≠ .drawing) (hback : k'.backlog = k.backlog)
    (hflag : k'.stopRequested = k.stopRequested) : Goes handler reader s₀ (k, c) (k', c) := by
  refine ⟨⟨[act], ?_, fun h => hstop (List.mem_singleton.mp h).symm,
    fun h => hdrawing (List.mem_singleton.mp h).symm⟩, hback, hflag⟩
  exact Machine.Run.refl.tail (l := some _) (AttachStep.visible hstep)

/-- What is not seen takes no message, requests no stop and begins no drawing. -/
theorem goes_of_silent (hstep : BoxStep k none k') : Goes handler reader s₀ (k, c) (k', c) :=
  ⟨⟨[], Machine.Run.refl.tail (l := none) (AttachStep.silent hstep), List.not_mem_nil,
    List.not_mem_nil⟩, hstep.backlog_of_unseen nofun⟩

theorem goes_of_joint {x : Monitor.Call BoxThread (BoxOp M) (BoxReply ε ρ)}
    (hk : BoxStep k (some (.inr x)) k') (hx : (boxSee x : Option (BoxEvent M ε ρ)) = none)
    (hc : Monitor.LockedStep (boxCode handler reader) c (some x) c') :
    Goes handler reader s₀ (k, c) (k', c') :=
  ⟨⟨[], Machine.Run.refl.tail (l := none) (AttachStep.joint hx hk hc), List.not_mem_nil,
    List.not_mem_nil⟩, hk.backlog_of_unseen nofun⟩

/-- A box can go on to a state in which the lock is free and its threads
stand where it says. -/
def Settles (handler : M → Resumption σ (Except ε Unit)) (reader : Resumption σ ρ) (s₀ : σ)
    (q : BoxClient M ε ρ × Monitor.Locked BoxThread σ (BoxOp M) (BoxReply ε ρ))
    (worker : PollPlace M ε) (ui : DrawPlace ρ) : Prop :=
  ∃ q', Goes handler reader s₀ q q' ∧ q'.1.worker = worker ∧ q'.1.ui = ui ∧ q'.2.holder = none

variable {worker : PollPlace M ε} {ui : DrawPlace ρ}

theorem settles_of_free (hw : k.worker = worker) (hui : k.ui = ui) (hfree : c.holder = none) :
    Settles handler reader s₀ (k, c) worker ui :=
  ⟨(k, c), goes_refl, hw, hui, hfree⟩

theorem Goes.settles (h : Goes handler reader s₀ q q')
    (h' : Settles handler reader s₀ q' worker ui) : Settles handler reader s₀ q worker ui := by
  obtain ⟨q'', hmore, hplaces⟩ := h'
  exact ⟨q'', h.trans hmore, hplaces⟩

/-! ## The UI thread ends its drawing -/

/-- The copy has been made. -/
theorem settles_of_copied {r : ρ} (hui : k.ui = .copying)
    (hc : c.place .ui = .finished (.copied r)) (hfree : c.holder = none) :
    Settles handler reader s₀ (k, c) k.worker .elsewhere :=
  (goes_of_joint (BoxStep.copied (r := r) hui) rfl (Monitor.LockedStep.ret hc)).settles
    ((goes_of_visible (BoxStep.drawn rfl) nofun nofun rfl rfl).settles
      (settles_of_free rfl rfl hfree))

/-- The UI thread is at the lock, which is free. -/
theorem settles_of_copying (hquiet : ∀ s, reader.told s = 0) (hui : k.ui = .copying)
    (hc : c.place .ui = .waiting .copy) (hfree : c.holder = none) :
    Settles handler reader s₀ (k, c) k.worker .elsewhere := by
  have hrun := Monitor.run_of_waiting (boxCode handler reader) s₀ hc hfree
  rw [boxCode, Resumption.told_map, hquiet] at hrun
  have hgoes : Goes handler reader s₀ (k, c) (k, _) :=
    goes_of_run (u := []) (run_attach_of_silent hrun k) ⟨List.not_mem_nil, List.not_mem_nil⟩
  refine hgoes.settles (settles_of_copied (r := (reader.run c.state).1) hui ?_ rfl)
  rw [Resumption.run_map]
  exact Monitor.Locked.place_update_self _ _ _ _ _

/-- **With the lock free the UI thread can end its drawing.** -/
theorem settles_ui (hquiet : ∀ s, reader.told s = 0) (hfree : c.holder = none)
    (hidle : k.ui = .drawing → c.place .ui = .idle)
    (hcalled : k.ui = .copying → c.place .ui = .waiting .copy
      ∨ ∃ r, c.place .ui = .finished (.copied r)) :
    Settles handler reader s₀ (k, c) k.worker .elsewhere := by
  cases hui : k.ui with
  | elsewhere => exact settles_of_free rfl hui hfree
  | drawing =>
    refine (goes_of_joint (BoxStep.copy hui) rfl (Monitor.LockedStep.call _ (hidle hui))).settles ?_
    exact settles_of_copying hquiet rfl (Monitor.Locked.place_update_self _ _ _ _ _) hfree
  | copying =>
    rcases hcalled hui with hwait | ⟨r, hfin⟩
    · exact settles_of_copying hquiet hui hwait hfree
    · exact settles_of_copied hui hfin hfree
  | copied r =>
    exact (goes_of_visible (BoxStep.drawn hui) nofun nofun rfl rfl).settles
      (settles_of_free rfl rfl hfree)

/-! ## The worker ends its message -/

theorem settles_of_loop (hw : k.worker = .loop) (hstop : k.stopRequested = false)
    (hfree : c.holder = none) : Settles handler reader s₀ (k, c) .dequeue k.ui :=
  (goes_of_silent (BoxStep.loop hw hstop)).settles (settles_of_free rfl rfl hfree)

theorem settles_of_handled (hw : k.worker = .handled) (hstop : k.stopRequested = false)
    (hfree : c.holder = none) : Settles handler reader s₀ (k, c) .dequeue k.ui :=
  (goes_of_visible (BoxStep.post hw) nofun nofun rfl rfl).settles (settles_of_loop rfl hstop hfree)

/-- The handler has returned. -/
theorem settles_of_finished (hw : k.worker = .handling) (hstop : k.stopRequested = false)
    (hc : c.place .worker = .finished (.handled (.ok ()))) (hfree : c.holder = none) :
    Settles handler reader s₀ (k, c) .dequeue k.ui :=
  (goes_of_joint (BoxStep.handled hw) rfl (Monitor.LockedStep.ret hc)).settles
    (settles_of_handled rfl hstop hfree)

/-- The worker is at the lock, which is free, with a message that can be
handled. -/
theorem settles_of_waiting (hw : k.worker = .handling) (hstop : k.stopRequested = false) {msg : M}
    (hc : c.place .worker = .waiting (.handle msg)) (hfree : c.holder = none)
    (hmsg : ((handler msg).run c.state).1 = .ok ()) :
    Settles handler reader s₀ (k, c) .dequeue k.ui := by
  have hgoes : Goes handler reader s₀ (k, c) (k, _) := goes_of_run
    (run_of_worker hw (Monitor.run_of_waiting (boxCode handler reader) s₀ hc hfree))
    (finishing_postedWithin _)
  refine hgoes.settles (settles_of_finished hw hstop ?_ rfl)
  rw [boxCode, Resumption.run_map, hmsg]
  exact Monitor.Locked.place_update_self _ _ _ _ _

/-- What there is to say of a worker that no stop and no exception has ended. -/
structure AtWork (handler : M → Resumption σ (Except ε Unit)) (k : BoxClient M ε ρ)
    (c : Monitor.Locked BoxThread σ (BoxOp M) (BoxReply ε ρ)) : Prop where
  unstopped : k.stopRequested = false
  alive : k.worker ≠ .returned ∧ k.worker ≠ .failed ∧ ∀ e, k.worker ≠ .caught e
  taken : ∀ msg, k.worker = .taken msg →
    c.place .worker = .idle ∧ ((handler msg).run c.state).1 = .ok ()
  handling : k.worker = .handling →
    (∃ msg, c.place .worker = .waiting (.handle msg) ∧ ((handler msg).run c.state).1 = .ok ())
      ∨ c.place .worker = .finished (.handled (.ok ()))

/-- **With the lock free the worker can go back to the queue.** -/
theorem AtWork.settles (h : AtWork handler k c) (hfree : c.holder = none) :
    Settles handler reader s₀ (k, c) .dequeue k.ui := by
  cases hw : k.worker with
  | loop => exact settles_of_loop hw h.unstopped hfree
  | dequeue => exact settles_of_free hw rfl hfree
  | missed =>
    exact (goes_of_silent (BoxStep.backOff hw h.unstopped)).settles (settles_of_free rfl rfl hfree)
  | taken msg =>
    obtain ⟨hidle, hmsg⟩ := h.taken msg hw
    refine (goes_of_joint (BoxStep.handle hw) rfl (Monitor.LockedStep.call _ hidle)).settles ?_
    exact settles_of_waiting rfl h.unstopped (Monitor.Locked.place_update_self _ _ _ _ _) hfree hmsg
  | handling =>
    rcases h.handling hw with ⟨msg, hwait, hmsg⟩ | hfin
    · exact settles_of_waiting hw h.unstopped hwait hfree hmsg
    · exact settles_of_finished hw h.unstopped hfin hfree
  | handled => exact settles_of_handled hw h.unstopped hfree
  | caught e => exact absurd hw (h.alive.2.2 e)
  | returned => exact absurd hw h.alive.1
  | failed => exact absurd hw h.alive.2.1

end Goes

/-! ## What the threads know -/

/-- A worker returns only when it finds that a stop was requested. -/
theorem stopRequested_of_returned {t : List (BoxEvent M ε ρ)}
    {q : BoxClient M ε ρ × Monitor.Locked BoxThread σ (BoxOp M) (BoxReply ε ρ)}
    (h : (box handler reader s₀).Reaches t q) :
    q.1.worker = .returned → q.1.stopRequested = true := by
  have hkept : ∀ {k k' : BoxClient M ε ρ} {l}, (k.worker = .returned → k.stopRequested = true) →
      BoxStep k l k' → k'.worker = .returned → k'.stopRequested = true := by
    intro k k' l hk hstep
    cases hstep with
    | enqueue c msg => exact hk
    | requestStop => exact fun _ => rfl
    | leave _ hstop => exact fun _ => hstop
    | leaveEmpty _ hstop => exact fun _ => hstop
    | told _ => exact hk
    | draw _ => exact hk
    | copy _ => exact hk
    | copied _ => exact hk
    | drawn _ => exact hk
    | _ => exact nofun
  refine h.induction (I := fun _ q => q.1.worker = .returned → q.1.stopRequested = true) ?_ ?_ ?_
  · rintro ⟨k, c⟩ ⟨rfl, -⟩
    exact nofun
  · rintro - p p' hp hstep
    cases hstep with
    | silent hk => exact hkept hp hk
    | object _ => exact hp
    | joint _ hk _ => exact hkept hp hk
  · rintro - p e p' hp hstep
    cases hstep with
    | visible hk => exact hkept hp hk
    | joint _ hk _ => exact hkept hp hk

variable {spec : M → EStateM ε σ Unit} {asks : ℕ → σ → σ → Prop} {view : σ → ρ}
  {k : BoxClient M ε ρ}
  {c : Monitor.Locked BoxThread σ (BoxOp M) (BoxReply ε ρ)} {t : List (BoxEvent M ε ρ)}

/-- **What has been put on the queue is handled without an exception**, one
message after another, the queue being calm, and no stop has been
requested. -/
structure Smooth (spec : M → EStateM ε σ Unit) (s₀ : σ) (t : List (BoxEvent M ε ρ)) (s : σ) :
    Prop where
  unstopped : (seen t).takenAtStop = none
  calm : Calm t
  handled : Resumption.outcome (handleAll spec (everythingPut t)) s₀ = (.ok (), s)

/-- **A box seen from inside**: with the lock free, what its threads and its
object are at is what has been seen of it. -/
structure Standing (spec : M → EStateM ε σ Unit) (view : σ → ρ) (s₀ : σ) (w : Seen M ε ρ)
    (k : BoxClient M ε ρ) (c : Monitor.Locked BoxThread σ (BoxOp M) (BoxReply ε ρ))
    (status : BoxThread → Monitor.Status (BoxOp M) (BoxReply ε ρ)) (n : ℕ) (ks : List ℕ) :
    Prop where
  work : Work spec s₀ w.taken w.posted w.threw n (status .worker) c.state k.worker
  draws : Draws spec view s₀ w.taken w.asked w.askedAtDrawing ks n (status .ui) k.ui
  idle : ∀ i, status i = .idle → c.place i = .idle
  called : ∀ i op, status i = .called op → c.place i = .waiting op
  done : ∀ i left r, status i = .done left r → c.place i = .finished r
  queue : QueueKept w k
  stop : StopKept w k
  works : Works spec view s₀ w

theorem Codes.standing (h : Codes handler reader spec asks view)
    (hreach : (box handler reader s₀).Reaches t (k, c)) (hfree : c.holder = none) :
    ∃ status n ks, Standing spec view s₀ (seen t) k c status n ks := by
  obtain ⟨⟨k', a⟩, hspec, hk, hrel⟩ := (h.refines s₀).reaches hreach
  obtain rfl : k = k' := hk
  obtain ⟨n, ks, hinv⟩ := boxInv_of_reaches hspec
  have hout : ∀ i, c.holder ≠ some i := fun i => by
    rw [hfree]
    exact nofun
  have hplace := fun i => place_of_standsFor (hrel.stands i) (hrel.outside (hout i))
  refine ⟨a.status, n, ks, ?_, hinv.draws, fun i => (hplace i).1, fun i => (hplace i).2.1,
    fun i => (hplace i).2.2, queueKept_of_reaches hspec, stopKept_of_reaches hspec,
    works_of_trace ⟨_, hspec⟩⟩
  have hstate : c.state = a.state := hrel.free hfree
  rw [hstate]
  exact hinv.work

section Standing

variable {status : BoxThread → Monitor.Status (BoxOp M) (BoxReply ε ρ)} {n : ℕ} {ks : List ℕ}
  {s : σ}

theorem Standing.unstopped (h : Standing spec view s₀ (seen t) k c status n ks)
    (hs : Smooth spec s₀ t s) : k.stopRequested = false := by
  rw [h.stop.flag, hs.unstopped]
  rfl

/-- What has been taken has been handled or can be, and from there what is
still on the queue, which is of one thread. -/
theorem Standing.handled (h : Standing spec view s₀ (seen t) k c status n ks)
    (hs : Smooth spec s₀ t s) (horder : InOrder t) :
    ∃ i s₁, Resumption.outcome (handleAll spec (seen t).taken) s₀ = (.ok (), s₁)
      ∧ Resumption.outcome (handleAll spec (k.backlog i)) s₁ = (.ok (), s) := by
  obtain ⟨i, rest, hwait⟩ := exists_waiting horder hs.calm
  have hall := hs.handled
  have hback : rest = k.backlog i := List.append_cancel_left (hwait.own.symm.trans (h.queue i))
  rw [hwait.put, hback] at hall
  exact ⟨i, outcome_handleAll_append hall⟩

/-- The message in hand can be handled. -/
theorem InHand.fst_outcome {taken : List M} {posted : ℕ} {msg : M} {s s₁ : σ}
    (h : InHand spec s₀ taken posted msg s)
    (hall : Resumption.outcome (handleAll spec taken) s₀ = (.ok (), s₁)) :
    (Resumption.outcome (spec msg) s).1 = .ok () := by
  have hafter := h.after (r := (Resumption.outcome (spec msg) s).1) rfl
  exact congrArg Prod.fst (hafter.symm.trans hall)

/-- **The worker is at work** as long as nothing has gone wrong. -/
theorem Standing.atWork (hcodes : Codes handler reader spec asks view)
    (h : Standing spec view s₀ (seen t) k c status n ks) (hs : Smooth spec s₀ t s)
    (horder : InOrder t) (hreturned : k.worker = .returned → k.stopRequested = true) :
    AtWork handler k c := by
  have hunstopped := h.unstopped hs
  obtain ⟨i, s₁, hall, -⟩ := h.handled hs horder
  have hwork := h.work
  have hrun : ∀ {msg s'}, InHand spec s₀ (seen t).taken (seen t).posted msg s' →
      ((handler msg).run s').1 = .ok () := by
    intro msg s' hhand
    rw [(hcodes.handler msg s').1]
    exact hhand.fst_outcome hall
  have hnever : ∀ {msg s' e}, InHand spec s₀ (seen t).taken (seen t).posted msg s' →
      Resumption.outcome (spec msg) s' ≠ (.error e, c.state) := by
    intro msg s' e hhand herror
    have hok := hhand.fst_outcome hall
    rw [herror] at hok
    cases hok
  refine ⟨hunstopped, ⟨fun hw => ?_, fun hw => ?_, fun e hw => ?_⟩, fun msg hw => ?_, fun hw => ?_⟩
  · rw [hreturned hw] at hunstopped
    cases hunstopped
  · rw [hw] at hwork
    obtain ⟨-, e, -, msg, s', hhand, herror, -⟩ := hwork
    exact hnever hhand herror
  · rw [hw] at hwork
    obtain ⟨-, -, msg, s', hhand, herror, -⟩ := hwork
    exact hnever hhand herror
  · rw [hw] at hwork
    obtain ⟨hidle, -, hhand, -⟩ := hwork
    exact ⟨h.idle _ hidle, hrun hhand⟩
  · rw [hw] at hwork
    obtain ⟨-, msg, ⟨hop, hhand, -⟩ | ⟨s', left, r, hhand, hop, hmsg, -⟩⟩ := hwork
    · exact Or.inl ⟨msg, h.called _ _ hop, hrun hhand⟩
    · have hok := hhand.fst_outcome hall
      rw [hmsg] at hok
      obtain rfl : r = .ok () := hok
      exact Or.inr (h.done _ _ _ hop)

/-- And the UI thread can end its drawing. -/
theorem Standing.settles_ui (h : Standing spec view s₀ (seen t) k c status n ks)
    (hquiet : ∀ s, reader.told s = 0) (hfree : c.holder = none) :
    Settles handler reader s₀ (k, c) k.worker .elsewhere := by
  have hdraws := h.draws
  refine Ui.settles_ui hquiet hfree (fun hui => ?_) (fun hui => ?_)
  · rw [hui] at hdraws
    exact h.idle _ hdraws.1
  · rw [hui] at hdraws
    rcases hdraws with ⟨hop, -⟩ | ⟨r, hop, -⟩
    · exact Or.inl (h.called _ _ hop)
    · exact Or.inr ⟨r, h.done _ _ _ hop⟩

/-- Back at the queue, with no drawing under way, no one is at the object. -/
theorem Standing.unattended (h : Standing spec view s₀ (seen t) k c status n ks)
    (hw : k.worker = .dequeue) (hui : k.ui = .elsewhere) (hfree : c.holder = none) :
    c = Monitor.unattended c.state := by
  have hwork := h.work
  have hdraws := h.draws
  rw [hw] at hwork
  rw [hui] at hdraws
  obtain ⟨state, holder, place⟩ := c
  obtain rfl : holder = none := hfree
  have hplace : place = fun _ => .idle := by
    funext j
    cases j with
    | worker => exact h.idle _ hwork.1
    | ui => exact h.idle _ hdraws
  rw [hplace]
  rfl

end Standing

/-! ## Everything is settled -/

section Settled

variable {s : σ}
  {q q' : BoxClient M ε ρ × Monitor.Locked BoxThread σ (BoxOp M) (BoxReply ε ρ)}

/-- Nothing goes wrong on the way. -/
theorem Codes.smooth_of_goes (h : Codes handler reader spec asks view)
    (hreach : (box handler reader s₀).Reaches t q) (hs : Smooth spec s₀ t s)
    (hgoes : Goes handler reader s₀ q q') :
    ∃ t', (box handler reader s₀).Reaches t' q' ∧ Smooth spec s₀ t' s := by
  obtain ⟨⟨u, hu, -⟩, -, hflag⟩ := hgoes
  have hstop : ∀ {t q}, (box handler reader s₀).Reaches t q →
      q.1.stopRequested = (seen t).takenAtStop.isSome := by
    rintro t ⟨k, c⟩ hq
    obtain ⟨⟨k', a⟩, hspec, hk, -⟩ := (h.refines s₀).reaches hq
    obtain rfl : k = k' := hk
    exact (stopKept_of_reaches hspec).flag
  refine ⟨_, hreach.run hu, ?_, hs.calm.append_own u, ?_⟩
  · have hflag' := hstop (hreach.run hu)
    rw [hflag, hstop hreach, hs.unstopped] at hflag'
    exact Option.isNone_iff_eq_none.mp (Option.isSome_eq_false_iff.mp hflag'.symm)
  · rw [everythingPut_append, everythingPut_own, List.append_nil]
    exact hs.handled

/-- **A box can always settle**: from wherever its threads stand they can end
what they are at, with the object ready for what is still on the queue. -/
theorem Codes.exists_goes_settled (h : Codes handler reader spec asks view)
    (hreach : (box handler reader s₀).Reaches t q) (hs : Smooth spec s₀ t s) :
    ∃ k s' i, Goes handler reader s₀ q (k, Monitor.unattended s') ∧ k.worker = .dequeue
      ∧ k.ui = .elsewhere ∧ k.stopRequested = false
      ∧ Resumption.outcome (handleAll spec (k.backlog i)) s' = (.ok (), s) := by
  -- whoever has the lock runs to the end of the operation
  obtain ⟨q₁, hgoes₁, hfree₁⟩ : ∃ q₁, Goes handler reader s₀ q q₁ ∧ q₁.2.holder = none := by
    obtain ⟨k, c⟩ := q
    cases hholder : c.holder with
    | none => exact ⟨(k, c), goes_refl, hholder⟩
    | some j =>
      obtain ⟨n, c', hrun, hfree⟩ := h.run_of_holder hreach hholder
      exact ⟨(k, c'), goes_of_run hrun (finishing_postedWithin n), hfree⟩
  obtain ⟨t₁, hreach₁, hs₁⟩ := h.smooth_of_goes hreach hs hgoes₁
  obtain ⟨status₁, n₁, ks₁, hst₁⟩ := h.standing hreach₁ hfree₁
  -- then the UI thread,
  have hsettles₁ : Settles handler reader s₀ q₁ q₁.1.worker .elsewhere :=
    hst₁.settles_ui h.quiet hfree₁
  obtain ⟨q₂, hgoes₂, -, hui₂, hfree₂⟩ := hsettles₁
  obtain ⟨t₂, hreach₂, hs₂⟩ := h.smooth_of_goes hreach₁ hs₁ hgoes₂
  obtain ⟨status₂, n₂, ks₂, hst₂⟩ := h.standing hreach₂ hfree₂
  -- and then the worker
  have hwork₂ := hst₂.atWork h hs₂ (h.inOrder ⟨_, hreach₂⟩) (stopRequested_of_returned hreach₂)
  have hsettles₂ : Settles handler reader s₀ q₂ .dequeue q₂.1.ui := hwork₂.settles hfree₂
  obtain ⟨⟨k₃, c₃⟩, hgoes₃, hw₃, hui₃, hfree₃⟩ := hsettles₂
  obtain ⟨t₃, hreach₃, hs₃⟩ := h.smooth_of_goes hreach₂ hs₂ hgoes₃
  obtain ⟨status₃, n₃, ks₃, hst₃⟩ := h.standing hreach₃ hfree₃
  have hui : k₃.ui = .elsewhere := hui₃.trans hui₂
  have hunattended := hst₃.unattended hw₃ hui hfree₃
  obtain ⟨i, s₁, htaken, hrest⟩ := hst₃.handled hs₃ (h.inOrder ⟨_, hreach₃⟩)
  refine ⟨k₃, c₃.state, i, ?_, hw₃, hui, hst₃.unstopped hs₃, ?_⟩
  · rw [← hunattended]
    exact (hgoes₁.trans hgoes₂).trans hgoes₃
  · have hwork := hst₃.work
    rw [hw₃] at hwork
    obtain ⟨-, -, -, hall, -⟩ := hwork
    obtain rfl : c₃.state = s₁ := (Prod.mk.inj (hall.symm.trans htaken)).2
    exact hrest

/-- **And from there handle what is on the queue.** -/
theorem Codes.exists_run_emptied (h : Codes handler reader spec asks view) {i : ℕ} {msgs : List M}
    {k : BoxClient M ε ρ} {s' : σ} (hw : k.worker = .dequeue) (hui : k.ui = .elsewhere)
    (hstop : k.stopRequested = false) (hback : k.backlog i = msgs)
    (hall : Resumption.outcome (handleAll spec msgs) s' = (.ok (), s)) :
    ∃ (u : List (BoxAct M ε ρ)) (k' : BoxClient M ε ρ),
      (box handler reader s₀).Run (k, Monitor.unattended s') (u.map .own) (k', Monitor.unattended s)
        ∧ Finishing u ∧ k'.ui = .elsewhere := by
  induction msgs generalizing k s' with
  | nil =>
    obtain ⟨-, rfl⟩ := Prod.mk.inj hall
    exact ⟨[], k, Machine.Run.refl, ⟨List.not_mem_nil, List.not_mem_nil⟩, hui⟩
  | cons msg msgs ih =>
    obtain ⟨_, s₁, hmsg, hmore⟩ := bind_ok_iff.mp (Resumption.run_of_outcome_ok hall)
    have hrun : (box handler reader s₀).Run (k, Monitor.unattended s') _ _ :=
      run_of_polled hw hback (h.run_of_ok hmsg)
    have hloop := hrun.trans (run_of_loop rfl hstop)
    obtain ⟨u, k', hrest, hu, hui'⟩ := ih
      (k := ⟨Function.update k.backlog i msgs, k.stopRequested, .dequeue, .initial, k.ui⟩)
      rfl hui hstop (Function.update_self _ _ _) (Resumption.outcome_of_ok hmore)
    refine ⟨handledOnce i msg ((handler msg).told s') ++ u, k', ?_, ?_, hui'⟩
    · rw [List.map_append]
      rw [List.append_nil] at hloop
      exact hloop.trans hrest
    · have hnone := finishing_postedWithin (M := M) (ε := ε) (ρ := ρ) ((handler msg).told s')
      refine Finishing.append ⟨?_, ?_⟩ hu
      · simp [handledOnce, hnone.1]
      · simp [handledOnce, hnone.2]

/-- **A box can always catch up**: whatever has happened, if what was put on
the queue can be handled and no stop was requested, its threads can go on
until the object is the one after all of it, with no drawing under way. -/
theorem Codes.catchesUp (h : Codes handler reader spec asks view)
    (hreach : (box handler reader s₀).Reaches t q) (hs : Smooth spec s₀ t s) :
    ∃ (u : List (BoxAct M ε ρ)) (k' : BoxClient M ε ρ),
      (box handler reader s₀).Run q (u.map .own) (k', Monitor.unattended s)
        ∧ Finishing u ∧ k'.ui = .elsewhere := by
  obtain ⟨k, s', i, ⟨⟨u, hu, hfin⟩, -, -⟩, hw, hui, hstop, hall⟩ := h.exists_goes_settled hreach hs
  obtain ⟨v, k', hv, hfin', hui'⟩ : ∃ v k', (box handler reader s₀).Run _ _ (k', _) ∧ _ :=
    h.exists_run_emptied hw hui hstop rfl hall
  refine ⟨u ++ v, k', ?_, hfin.append hfin', hui'⟩
  rw [List.map_append]
  exact hu.trans hv

end Settled

/-! ## The UI thread at one box -/

/-- A drawing of the box is under way. -/
def DrawPlace.busy : DrawPlace ρ → Bool
  | .elsewhere => false
  | _ => true

/-- What the UI thread does at a box: one drawing after another. -/
inductive PenStep : Bool → Option (BoxAct M ε ρ) → Bool → Prop
  | drawing : PenStep false (some .drawing) true
  | drawn (r : ρ) : PenStep true (some (.drawn r)) false

/-- The UI thread as a box sees it. -/
def pen (M ε ρ : Type) : Machine Bool (BoxAct M ε ρ) where
  init b := b = false
  step := PenStep

/-- Its part in an event. -/
def BoxEvent.byUi : BoxEvent M ε ρ → Option (BoxAct M ε ρ)
  | .enqueued _ _ => none
  | .own act => act.byUi

section Pen

variable {q q' : BoxClient M ε ρ × Monitor.Locked BoxThread σ (BoxOp M) (BoxReply ε ρ)}
  {k k' : BoxClient M ε ρ}

theorem BoxStep.takesPart {e : BoxEvent M ε ρ} (h : BoxStep k (some (.inl e)) k') :
    TakesPart (pen M ε ρ) e.byUi k.ui.busy k'.ui.busy := by
  cases h with
  | draw hui =>
    rw [hui]
    exact PenStep.drawing
  | drawn hui =>
    rw [hui]
    exact PenStep.drawn _
  | _ => rfl

theorem BoxStep.busy_of_unseen
    {l : Option (BoxEvent M ε ρ ⊕ Monitor.Call BoxThread (BoxOp M) (BoxReply ε ρ))}
    (h : BoxStep k l k') (hl : ∀ e, l ≠ some (.inl e)) : k'.ui.busy = k.ui.busy := by
  cases h with
  | copy hui =>
    rw [hui]
    rfl
  | copied hui =>
    rw [hui]
    rfl
  | draw _ => exact absurd rfl (hl _)
  | drawn _ => exact absurd rfl (hl _)
  | _ => rfl

theorem busy_of_silent (h : (box handler reader s₀).step q none q') :
    q'.1.ui.busy = q.1.ui.busy := by
  cases h with
  | silent hk => exact hk.busy_of_unseen nofun
  | object _ => rfl
  | joint _ hk _ => exact hk.busy_of_unseen nofun

theorem takesPart_pen {part : Option (BoxEvent M ε ρ)}
    (h : TakesPart (box handler reader s₀) part q q') :
    TakesPart (pen M ε ρ) (part.bind BoxEvent.byUi) q.1.ui.busy q'.1.ui.busy := by
  cases part with
  | none =>
    obtain rfl : q' = q := h
    rfl
  | some e =>
    have hstep : AttachStep _ _ _ q (some e) q' := h
    cases hstep with
    | visible hk => exact hk.takesPart
    | joint hsee hk _ =>
      obtain ⟨-, rfl⟩ := boxSee_eq_some hsee
      exact hk.busy_of_unseen nofun

theorem run_pen {t : List (BoxEvent M ε ρ)} (h : (box handler reader s₀).Run q t q') :
    (pen M ε ρ).Run q.1.ui.busy (t.filterMap BoxEvent.byUi) q'.1.ui.busy := by
  induction h with
  | refl => exact Machine.Run.refl
  | @tail q₁ q₂ t l _ hstep ih =>
    rw [List.filterMap_append]
    cases l with
    | none =>
      rw [busy_of_silent hstep, Option.toList_none, List.filterMap_nil, List.append_nil]
      exact ih
    | some e =>
      have htakes : TakesPart _ (some e) _ _ := hstep
      have hpart := run_of_takesPart (takesPart_pen htakes)
      rw [Option.toList_some, List.filterMap_cons]
      cases hby : e.byUi with
      | none =>
        rw [Option.bind_some, hby] at hpart
        exact ih.trans hpart
      | some act =>
        rw [Option.bind_some, hby] at hpart
        exact ih.trans hpart

/-- With no drawing begun, at most the one under way ends. -/
theorem pen_of_no_drawing {b b' : Bool} {v : List (BoxAct M ε ρ)} (h : (pen M ε ρ).Run b v b')
    (hnone : .drawing ∉ v) : v = [] ∧ b' = b ∨ b = true ∧ b' = false ∧ ∃ r, v = [.drawn r] := by
  induction h with
  | refl => exact Or.inl ⟨rfl, rfl⟩
  | tail _ hstep ih =>
    obtain ⟨hpre, hlast⟩ := not_or.mp (fun h => hnone (List.mem_append.mpr h))
    cases hstep with
    | drawing => exact absurd (List.mem_singleton_self _) hlast
    | drawn r =>
      rcases ih hpre with ⟨rfl, rfl⟩ | ⟨-, hb, -⟩
      · exact Or.inr ⟨rfl, rfl, r, rfl⟩
      · cases hb

/-- What is seen of the UI thread when a box comes to an end: the end of the
drawing under way, if there was one. -/
theorem Finishing.byUi {u : List (BoxAct M ε ρ)} (hu : Finishing u)
    (h : (box handler reader s₀).Run q (u.map .own) q') (hui : q'.1.ui = .elsewhere) :
    q.1.ui.busy = false ∧ u.filterMap BoxAct.byUi = []
      ∨ q.1.ui.busy = true ∧ ∃ r, u.filterMap BoxAct.byUi = [.drawn r] := by
  have hrun := run_pen h
  rw [List.filterMap_map, hui] at hrun
  have hnone : .drawing ∉ u.filterMap BoxAct.byUi := by
    intro hmem
    obtain ⟨act, hact, hby⟩ := List.mem_filterMap.mp hmem
    cases act with
    | drawing => exact hu.2 hact
    | _ => cases hby
  rcases pen_of_no_drawing hrun hnone with ⟨hnil, hb⟩ | ⟨hb, -, hr⟩
  · exact Or.inl ⟨hb.symm, hnil⟩
  · exact Or.inr ⟨hb, hr⟩

end Pen

end CatchUp

/-! ## The program -/

section Program

variable {δ : Type} {toUint64 : δ → UInt64 → UInt64} {maxDepth : UInt16} {b₀ : Core.OrderBook}
  {t : List (ProgramEvent δ)} {f f' : FramePlace}

/-- **Where the UI thread stands in its frame** is where the boxes see it. -/
structure AtFrame (f : FramePlace) (p : OrderBookBox δ × TradeListBox δ) : Prop where
  order : p.1.1.ui.busy = true ↔ f = .book
  trade : p.2.1.ui.busy = true ↔ f = .trades

theorem book_iff_of_order {b b' : Bool} {act : BoxAct (MarketMessageVariant δ) Exception _}
    (h : b = true ↔ f = .book) (hf : TakesPart (uiThread δ) (act.byUi.map .order) f f')
    (hb : TakesPart (pen _ _ _) act.byUi b b') :
    (b' = true ↔ f' = .book) ∧ (f' = .trades ↔ f = .trades) := by
  cases act with
  | drawing =>
    cases hf
    cases hb
    simp
  | drawn rows =>
    cases hf
    cases hb
    simp
  | _ =>
    obtain rfl : f' = f := hf
    obtain rfl : b' = b := hb
    exact ⟨h, Iff.rfl⟩

theorem trades_iff_of_trade {b b' : Bool}
    {act : BoxAct (MarketDataIncrementalRefresh δ) Exception _} (h : b = true ↔ f = .trades)
    (hf : TakesPart (uiThread δ) (act.byUi.map .trade) f f')
    (hb : TakesPart (pen _ _ _) act.byUi b b') :
    (b' = true ↔ f' = .trades) ∧ (f' = .book ↔ f = .book) := by
  cases act with
  | drawing =>
    cases hf
    cases hb
    simp
  | drawn trades =>
    cases hf
    cases hb
    simp
  | _ =>
    obtain rfl : f' = f := hf
    obtain rfl : b' = b := hb
    exact ⟨h, Iff.rfl⟩

/-- A message delivered is nothing to the UI thread. -/
theorem byUi_of_delivered (c : ℕ) (d : FixApp.Delivery δ) :
    (orderPart (.delivered c d)).bind BoxEvent.byUi = none
      ∧ (tradePart (.delivered c d)).bind BoxEvent.byUi = none := by
  have hput : ∀ {M ε ρ : Type} (o : Option M),
      (o.map (fun msg => (.enqueued c msg : BoxEvent M ε ρ))).bind BoxEvent.byUi = none := by
    intro M ε ρ o
    cases o <;> rfl
  exact ⟨hput _, hput _⟩

theorem atFrame_of_reaches {p : FramePlace × OrderBookBox δ × TradeListBox δ}
    (h : (framedProgram toUint64 maxDepth b₀).Reaches t p) : AtFrame p.1 p.2 := by
  refine h.induction (I := fun _ p => AtFrame p.1 p.2) ?_ ?_ ?_
  · rintro ⟨f, ⟨k, c⟩, k', c'⟩ ⟨rfl, ⟨rfl, -⟩, rfl, -⟩
    exact ⟨⟨nofun, nofun⟩, ⟨nofun, nofun⟩⟩
  · rintro - p p' hat hstep
    cases hstep with
    | leftSilent hf => cases hf
    | rightSilent hp =>
      cases hp with
      | leftSilent ha => exact ⟨(busy_of_silent ha) ▸ hat.order, hat.trade⟩
      | rightSilent hb => exact ⟨hat.order, (busy_of_silent hb) ▸ hat.trade⟩
  · rintro - p e p' hat hstep
    cases hstep with
    | visible _ hf hp =>
      cases hp with
      | visible _ ha hb =>
        have hpen := takesPart_pen ha
        have hpen' := takesPart_pen hb
        cases e with
        | delivered c d =>
          rw [(byUi_of_delivered c d).1] at hpen
          rw [(byUi_of_delivered c d).2] at hpen'
          obtain rfl : _ = _ := hf
          exact ⟨(show _ = _ from hpen) ▸ hat.order, (show _ = _ from hpen') ▸ hat.trade⟩
        | order act =>
          obtain ⟨horder, htrades⟩ := book_iff_of_order hat.order hf hpen
          exact ⟨horder, (show _ = _ from hpen') ▸ hat.trade.trans htrades.symm⟩
        | trade act =>
          obtain ⟨htrade, hbook⟩ := trades_iff_of_trade hat.trade hf hpen'
          exact ⟨(show _ = _ from hpen) ▸ hat.order.trans hbook.symm, htrade⟩

/-- A run of the program on the way of the UI thread. -/
theorem run_framed {p p' : OrderBookBox δ × TradeListBox δ} {u : List (ProgramEvent δ)}
    (hf : (uiThread δ).Run f (u.filterMap uiPart) f')
    (hp : (program toUint64 maxDepth b₀).Run p u p') :
    (framedProgram toUint64 maxDepth b₀).Run (f, p) u (f', p') := by
  refine run_beside u hf ?_
  rwa [List.filterMap_some]

/-- A step of the UI thread. -/
theorem run_frameStep {l : Option (ProgramEvent δ)} (h : FrameStep f l f') :
    (uiThread δ).Run f l.toList f' :=
  Machine.Run.single h

theorem uiPart_order (u : List (BoxAct (MarketMessageVariant δ) Exception (List Core.BidAsk))) :
    (u.map ProgramEvent.order).filterMap uiPart = (u.filterMap BoxAct.byUi).map .order := by
  rw [List.filterMap_map, List.map_filterMap]
  rfl

theorem uiPart_trade
    (u : List (BoxAct (MarketDataIncrementalRefresh δ) Exception (List Core.Trade))) :
    (u.map ProgramEvent.trade).filterMap uiPart = (u.filterMap BoxAct.byUi).map .trade := by
  rw [List.filterMap_map, List.map_filterMap]
  rfl

/-- The order-book box comes to an end: the UI thread is done with it. -/
theorem exists_framed_order {p p' : OrderBookBox δ} {q : TradeListBox δ} {u : List (BoxAct _ _ _)}
    (hat : AtFrame f (p, q)) (hrun : (orderBox toUint64 maxDepth b₀).Run p (u.map .own) p')
    (hu : Finishing u) (hui : p'.1.ui = .elsewhere) :
    ∃ f', (framedProgram toUint64 maxDepth b₀).Run (f, p, q) (u.map .order) (f', p', q)
      ∧ AtFrame f' (p', q) ∧ f' ≠ .book := by
  have hidle : p'.1.ui.busy = false := congrArg DrawPlace.busy hui
  rcases hu.byUi hrun hui with ⟨hbusy, hnil⟩ | ⟨hbusy, rows, hone⟩
  · have hne : f ≠ .book := fun hf => by simp [hat.order.mpr hf] at hbusy
    refine ⟨f, run_framed ?_ (run_of_order hrun q), ⟨?_, hat.trade⟩, hne⟩
    · rw [uiPart_order, hnil]
      exact Machine.Run.refl
    · simp [hidle, hne]
  · obtain rfl : f = .book := hat.order.mp hbusy
    refine ⟨.halfway, run_framed ?_ (run_of_order hrun q), ⟨?_, ?_⟩, nofun⟩
    · rw [uiPart_order, hone]
      exact run_frameStep (FrameStep.bookDrawn rows)
    · simp [hidle]
    · simp [hat.trade]

/-- And likewise the trade box. -/
theorem exists_framed_trade {p : OrderBookBox δ} {q q' : TradeListBox δ} {u : List (BoxAct _ _ _)}
    (hat : AtFrame f (p, q)) (hrun : (tradeBox toUint64).Run q (u.map .own) q')
    (hu : Finishing u) (hui : q'.1.ui = .elsewhere) (hf : f ≠ .book) :
    ∃ f', (framedProgram toUint64 maxDepth b₀).Run (f, p, q) (u.map .trade) (f', p, q')
      ∧ (f' = .outside ∨ f' = .halfway) := by
  rcases hu.byUi hrun hui with ⟨hbusy, hnil⟩ | ⟨hbusy, trades, hone⟩
  · refine ⟨f, run_framed ?_ (run_of_trade hrun p), ?_⟩
    · rw [uiPart_trade, hnil]
      exact Machine.Run.refl
    · cases f with
      | outside => exact Or.inl rfl
      | book => exact absurd rfl hf
      | halfway => exact Or.inr rfl
      | trades =>
        rw [hat.trade.mpr rfl] at hbusy
        cases hbusy
  · obtain rfl : f = .trades := hat.trade.mp hbusy
    refine ⟨.outside, run_framed ?_ (run_of_trade hrun p), Or.inl rfl⟩
    rw [uiPart_trade, hone]
    exact run_frameStep (FrameStep.tradesDrawn trades)

/-- With no one at the ring, the UI thread can draw the second half of a frame, -/
theorem run_secondHalf {p : OrderBookBox δ}
    {k : BoxClient (MarketDataIncrementalRefresh δ) Exception (List Core.Trade)}
    {r : TradeBox.TradeRing} (hk : k.ui = .elsewhere) :
    (framedProgram toUint64 maxDepth b₀).Run (.halfway, p, k, Monitor.unattended r)
      [.trade .drawing, .trade (.drawn r.items)] (.outside, p, k, Monitor.unattended r) := by
  have hcodes := tradeCodes toUint64
  exact run_framed
    ((run_frameStep FrameStep.drawTrades).trans (run_frameStep (FrameStep.tradesDrawn r.items)))
    (run_of_trade (run_of_drawing hk (hcodes.reader r) (hcodes.quiet r)) p)

/-- and with no one at the book either, a frame. -/
theorem run_frame {k : BoxClient (MarketMessageVariant δ) Exception (List Core.BidAsk)}
    {k' : BoxClient (MarketDataIncrementalRefresh δ) Exception (List Core.Trade)}
    {b : Core.OrderBook} {r : TradeBox.TradeRing} (hk : k.ui = .elsewhere)
    (hk' : k'.ui = .elsewhere) :
    (framedProgram toUint64 maxDepth b₀).Run
      (.outside, (k, Monitor.unattended b), k', Monitor.unattended r)
      [.order .drawing, .order (.drawn b.toVector), .trade .drawing, .trade (.drawn r.items)]
      (.outside, (k, Monitor.unattended b), k', Monitor.unattended r) := by
  have hcodes := orderCodes toUint64 maxDepth
  have hbook : (framedProgram toUint64 maxDepth b₀).Run (.outside, (k, _), k', _) _ _ := run_framed
    ((run_frameStep FrameStep.drawBook).trans (run_frameStep (FrameStep.bookDrawn b.toVector)))
    (run_of_order (run_of_drawing hk (hcodes.reader b) (hcodes.quiet b)) (k', Monitor.unattended r))
  exact hbook.trans (run_secondHalf hk')

/-- **The screen can always catch up.** Wherever the threads of the program
stand, the UI thread in one of the boxes or outside: if no stop was requested,
the queues are calm and what `FixApp` has put on them can be handled, they can
go on, with nothing more delivered, to a frame in which the book and the
trades of all of it are drawn. -/
theorem catch_up_possible {p : FramePlace × OrderBookBox δ × TradeListBox δ}
    (h : (framedProgram toUint64 maxDepth b₀).Reaches t p)
    (hrunning : (orderSeen t).takenAtStop = none ∧ (tradeSeen t).takenAtStop = none)
    (hcalm : CalmOrders t ∧ CalmTrades t) {b : Core.OrderBook} {r : TradeBox.TradeRing}
    (hb : (Core.OrderBook.applyMessages toUint64 (isBookClearNeeded maxDepth)
      (queues t).orderQueue).run b₀ = .ok () b)
    (hr : (TradeBox.onTrades toUint64 (queues t).tradeQueue).run .empty = .ok () r) :
    ∃ u p', (framedProgram toUint64 maxDepth b₀).Run p
        (u ++ [.order .drawing, .order (.drawn b.toVector),
          .trade .drawing, .trade (.drawn r.items)]) p'
      ∧ (∀ c d, .delivered c d ∉ u) ∧ .order .stopRequested ∉ u ∧ .trade .stopRequested ∉ u := by
  obtain ⟨f, p, q⟩ := p
  obtain ⟨⟨p₀, q₀⟩, ⟨hp₀, hq₀⟩, hrun⟩ := reaches_of_framed h
  have hsmooth : Smooth (Core.OrderBook.applyMessage toUint64 (isBookClearNeeded maxDepth)) b₀
      (t.filterMap orderPart) b := by
    refine ⟨hrunning.1, hcalm.1, ?_⟩
    rw [(everythingPut_eq t).1, handleAll_applyMessage]
    exact Resumption.outcome_of_ok hb
  have hsmooth' : Smooth (TradeBox.onTrade toUint64) .empty (t.filterMap tradePart) r := by
    refine ⟨hrunning.2, hcalm.2, ?_⟩
    rw [(everythingPut_eq t).2, handleAll_onTrade]
    exact Resumption.outcome_of_ok hr
  obtain ⟨u, k, hu, hfin, hk⟩ := (orderCodes toUint64 maxDepth).catchesUp
    ⟨p₀, hp₀, run_left_of_beside hrun⟩ hsmooth
  obtain ⟨v, k', hv, hfin', hk'⟩ := (tradeCodes toUint64).catchesUp
    ⟨q₀, hq₀, run_right_of_beside hrun⟩ hsmooth'
  -- both boxes come to an end, and with them the drawing under way
  obtain ⟨f₁, horder, hat₁, hf₁⟩ := exists_framed_order (atFrame_of_reaches h) hu hfin hk
  obtain ⟨f₂, htrade, hf₂⟩ := exists_framed_trade hat₁ hv hfin' hk' hf₁
  have hsettled := horder.trans htrade
  have hframe : (framedProgram toUint64 maxDepth b₀).Run
      (.outside, (k, Monitor.unattended b), k', Monitor.unattended r) _ _ := run_frame hk hk'
  rcases hf₂ with rfl | rfl
  · refine ⟨_, _, hsettled.trans hframe, ?_, ?_, ?_⟩
    · simp
    · simpa using hfin.1
    · simpa using hfin'.1
  · -- the frame that was begun is ended first
    refine ⟨_, _, (hsettled.trans (run_secondHalf hk')).trans hframe, ?_, ?_, ?_⟩
    · simp
    · simpa using hfin.1
    · simpa using hfin'.1

/-- The UI thread is about to copy the ring when the two sample messages are
delivered. -/
def laggingRun : List (ProgramEvent ℕ) :=
  [.order .drawing, .order (.drawn Core.OrderBook.empty.toVector), .trade .drawing,
    .delivered 0 ⟨pxSessionQualifier, .snapshot sampleSnapshot⟩,
    .delivered 1 ⟨txSessionQualifier, .increment sampleIncrement⟩]

theorem exists_reaches_lagging :
    ∃ p, (framedProgram sampleTicks 100 .empty).Reaches laggingRun p ∧ p.1 = .trades := by
  have hcodes := orderCodes sampleTicks 100
  have horder : (orderBox sampleTicks 100 .empty).Run (.init, Monitor.unattended .empty) _ _ :=
    (run_of_drawing rfl (hcodes.reader .empty) (hcodes.quiet .empty)).trans
      (Machine.Run.single (step_offered 0 (.snapshot sampleSnapshot)))
  have htrade : (tradeBox sampleTicks).Run (.init, Monitor.unattended .empty) _ _ :=
    (Machine.Run.single (AttachStep.visible (BoxStep.draw rfl))).trans
      (Machine.Run.single (AttachStep.visible (BoxStep.enqueue 1 sampleIncrement)))
  obtain ⟨p₀, hp₀, hrun⟩ := reaches_of_parts (t := laggingRun) horder htrade
  have hframe : (uiThread ℕ).Run .outside (laggingRun.filterMap uiPart) .trades :=
    ((run_frameStep FrameStep.drawBook).trans (run_frameStep (FrameStep.bookDrawn _))).trans
      (run_frameStep FrameStep.drawTrades)
  exact ⟨_, ⟨(.outside, p₀), ⟨rfl, hp₀⟩, run_framed hframe hrun⟩, rfl⟩

/-- The screen can catch up with both. -/
theorem catch_up_possible_sample :
    ∃ p, (framedProgram sampleTicks 100 .empty).Reaches laggingRun p ∧ p.1 = .trades
      ∧ ∃ u p', (framedProgram sampleTicks 100 .empty).Run p
          (u ++ [.order .drawing, .order (.drawn sampleBook.toVector),
            .trade .drawing, .trade (.drawn [sampleTrade])]) p'
        ∧ (∀ c d, .delivered c d ∉ u) ∧ .order .stopRequested ∉ u
          ∧ .trade .stopRequested ∉ u := by
  obtain ⟨p, hp, hf⟩ := exists_reaches_lagging
  have hnil : ∀ {M ε ρ : Type}, Calm ([] : List (BoxEvent M ε ρ)) := (calm_atOnce []).1
  have hcalm : CalmOrders laggingRun ∧ CalmTrades laggingRun :=
    ⟨(hnil.append_own [.drawing, .drawn _]).concat (fun _ _ _ _ _ => rfl),
      (hnil.append_own [.drawing]).concat (fun _ _ _ _ _ => rfl)⟩
  exact ⟨p, hp, hf, catch_up_possible (b := sampleBook)
    (r := RingBuffer.empty.pushBack sampleTrade) hp ⟨rfl, rfl⟩ hcalm rfl rfl⟩

end Program

end Ui
