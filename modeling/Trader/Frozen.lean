import Trader.Program

set_option autoImplicit false

/-!
# What a failed worker leaves behind

A worker whose handler throws keeps the exception in the `thread_exception`
of its box and returns. No one reads it there: `main` looks at the one of
`App`, which nothing sets. So the program goes on as before, with messages
put on the queue and the box drawn, but nothing is taken any more, and
whatever is drawn from then on is the object as the failed message left it
(`failure_freezes`).
-/

namespace Ui

open Fix EarlyExit Binance Transition

variable {M ε ρ σ : Type}

section Box

variable {spec : M → EStateM ε σ Unit} {asks : ℕ → σ → σ → Prop} {view : σ → ρ} {s₀ s : σ}
  {p q : BoxClient M ε ρ × Monitor.Atomic BoxThread σ (BoxOp M) (BoxReply ε ρ)}

/-- **A box whose worker has failed**: the worker is past its `catch`, and what
the UI thread calls leaves the object as it is. -/
structure Frozen (s : σ)
    (p : BoxClient M ε ρ × Monitor.Atomic BoxThread σ (BoxOp M) (BoxReply ε ρ)) : Prop where
  failed : p.1.worker = .failed
  idle : p.2.status .worker = .idle
  state : p.2.state = s
  calls : ∀ op, p.2.status .ui = .called op → op = .copy

/-- What the UI thread has copied, or is about to, is `r`. -/
def CopyIs (r : ρ)
    (p : BoxClient M ε ρ × Monitor.Atomic BoxThread σ (BoxOp M) (BoxReply ε ρ)) : Prop :=
  match p.1.ui with
  | .copying => p.2.status .ui = .called .copy ∨ ∃ left, p.2.status .ui = .done left (.copied r)
  | .copied r' => r' = r
  | _ => True

/-- What can still happen at such a box. -/
inductive Aftermath : BoxEvent M ε ρ → Prop
  | enqueued (c : ℕ) (msg : M) : Aftermath (.enqueued c msg)
  | stopRequested : Aftermath (.own .stopRequested)
  | drawing : Aftermath (.own .drawing)
  | drawn (r : ρ) : Aftermath (.own (.drawn r))

/-- Past its `catch` a worker takes no step, and the UI thread only copies. -/
theorem BoxStep.of_failed {k k' : BoxClient M ε ρ}
    {l : Option (BoxEvent M ε ρ ⊕ Monitor.Call BoxThread (BoxOp M) (BoxReply ε ρ))}
    (h : BoxStep k l k') (hk : k.worker = .failed) :
    k'.worker = .failed ∧ (∀ e, l = some (.inl e) → Aftermath e)
      ∧ (∀ i op, l = some (.inr (.call i op)) → i = .ui ∧ op = .copy)
      ∧ (∀ i r, l = some (.inr (.ret i r)) → i = .ui)
      ∧ ∀ i, l ≠ some (.inr (.told i)) := by
  have hlabel : ∀ {e : BoxEvent M ε ρ}, Aftermath e → ∀ e',
      (some (.inl e) : Option (BoxEvent M ε ρ ⊕ Monitor.Call BoxThread (BoxOp M) (BoxReply ε ρ)))
        = some (.inl e') → Aftermath e' := by
    intro e he e' heq
    obtain rfl := Sum.inl.inj (Option.some.inj heq)
    exact he
  cases h with
  | enqueue c msg => exact ⟨hk, hlabel (.enqueued c msg), nofun, nofun, nofun⟩
  | requestStop => exact ⟨hk, hlabel .stopRequested, nofun, nofun, nofun⟩
  | draw _ => exact ⟨hk, hlabel .drawing, nofun, nofun, nofun⟩
  | drawn _ => exact ⟨hk, hlabel (.drawn _), nofun, nofun, nofun⟩
  | copy _ =>
    refine ⟨hk, nofun, fun i op heq => ?_, nofun, nofun⟩
    cases heq
    exact ⟨rfl, rfl⟩
  | copied _ =>
    refine ⟨hk, nofun, nofun, fun i r heq => ?_, nofun⟩
    cases heq
    rfl
  | _ => simp_all

/-- **It stays frozen.** -/
theorem Frozen.step (h : Frozen s p) {l : Option (BoxEvent M ε ρ)}
    (hstep : (boxSpec spec asks view s₀).step p l q) :
    Frozen s q ∧ ∀ e, l = some e → Aftermath e := by
  cases hstep with
  | silent hk => exact ⟨⟨(hk.of_failed h.failed).1, h.idle, h.state, h.calls⟩, nofun⟩
  | visible hk =>
    obtain ⟨hfailed, hevent, -⟩ := hk.of_failed h.failed
    refine ⟨⟨hfailed, h.idle, h.state, h.calls⟩, fun e he => ?_⟩
    cases he
    exact hevent _ rfl
  | object ha =>
    refine ⟨?_, nofun⟩
    cases ha with
    | @commit i op left hcalled _ =>
      cases i with
      | worker => rw [h.idle] at hcalled; cases hcalled
      | ui =>
        obtain rfl := h.calls op hcalled
        refine ⟨h.failed, ?_, h.state, fun op' hop' => ?_⟩
        · rw [Monitor.Atomic.status_move_of_ne _ (by decide)]
          exact h.idle
        · rw [Monitor.Atomic.status_move_self] at hop'
          cases hop'
  | joint hsee hk ha =>
    obtain ⟨hfailed, -, hcall, hret, htold⟩ := hk.of_failed h.failed
    cases ha with
    | call op _ =>
      obtain ⟨rfl, rfl⟩ := hcall _ _ rfl
      cases hsee
      refine ⟨⟨hfailed, ?_, h.state, fun op' hop' => ?_⟩, nofun⟩
      · rw [Monitor.Atomic.status_move_of_ne _ (by decide)]
        exact h.idle
      · rw [Monitor.Atomic.status_move_self] at hop'
        exact (Monitor.Status.called.inj hop').symm
    | ret _ =>
      obtain rfl := hret _ _ rfl
      cases hsee
      refine ⟨⟨hfailed, ?_, h.state, fun op' hop' => ?_⟩, nofun⟩
      · rw [Monitor.Atomic.status_move_of_ne _ (by decide)]
        exact h.idle
      · rw [Monitor.Atomic.status_move_self] at hop'
        cases hop'
    | tell _ => exact absurd rfl (htold _)

/-- **What is copied is the object.** -/
theorem CopyIs.step (hfrozen : Frozen s p) (h : CopyIs (view s) p)
    {l : Option (BoxEvent M ε ρ)} (hstep : (boxSpec spec asks view s₀).step p l q) :
    CopyIs (view s) q := by
  cases hstep with
  | silent hk =>
    cases hk with
    | loop hw _ => cases hfrozen.failed.symm.trans hw
    | miss hw => cases hfrozen.failed.symm.trans hw
    | backOff hw _ => cases hfrozen.failed.symm.trans hw
  | visible hk =>
    cases hk with
    | enqueue _ _ => exact h
    | requestStop => exact h
    | draw _ => exact trivial
    | drawn _ => exact trivial
    | leave hw _ => cases hfrozen.failed.symm.trans hw
    | dequeue hw _ => cases hfrozen.failed.symm.trans hw
    | leaveEmpty hw _ => cases hfrozen.failed.symm.trans hw
    | post hw => cases hfrozen.failed.symm.trans hw
    | keepException hw => cases hfrozen.failed.symm.trans hw
  | @object k a _ ha =>
    cases ha with
    | @commit i op left hcalled _ =>
      cases i with
      | worker =>
        rw [hfrozen.idle] at hcalled
        cases hcalled
      | ui =>
        obtain rfl := hfrozen.calls op hcalled
        have hcopied : ∀ place : DrawPlace ρ, k.ui = place → CopyIs (view s)
            (k, Monitor.Atomic.move { a with state := (boxApply spec view .copy a.state).2 } .ui
              (.done left (boxApply spec view .copy a.state).1)) := by
          intro place hui
          unfold CopyIs at h ⊢
          rw [hui] at h ⊢
          cases place with
          | copying =>
            refine Or.inr ⟨left, ?_⟩
            rw [Monitor.Atomic.status_move_self, boxApply, show a.state = s from hfrozen.state]
          | copied r => exact h
          | _ => exact trivial
        exact hcopied _ rfl
  | joint _ hk ha =>
    cases hk with
    | copy _ =>
      cases ha with
      | call _ _ => exact Or.inl (Monitor.Atomic.status_move_self _ _ _)
    | copied hui =>
      cases ha with
      | ret hdone =>
        unfold CopyIs at h
        rw [show _ = DrawPlace.copying from hui] at h
        rcases h with hcall | ⟨left, hcopy⟩
        · rw [hdone] at hcall
          cases hcall
        · rw [hdone] at hcopy
          exact BoxReply.copied.inj (Monitor.Status.done.inj hcopy).2
    | handle hw => cases hfrozen.failed.symm.trans hw
    | told hw => cases hfrozen.failed.symm.trans hw
    | handled hw => cases hfrozen.failed.symm.trans hw
    | threw hw => cases hfrozen.failed.symm.trans hw

/-- One thing and later another, the other perhaps the last. -/
theorem sublist_concat {α : Type} {a b e : α} {u : List α} (h : [a, b].Sublist (u ++ [e])) :
    [a, b].Sublist u ∨ a ∈ u ∧ b = e := by
  have hrev := h.reverse
  rw [List.reverse_append, List.reverse_singleton, List.singleton_append] at hrev
  rcases List.sublist_cons_iff.mp hrev with hu | ⟨v, hv, hu⟩
  · exact Or.inl (by simpa using hu.reverse)
  · obtain ⟨rfl, rfl⟩ := List.cons.inj hv
    exact Or.inr ⟨List.mem_reverse.mp (List.singleton_sublist.mp hu), rfl⟩

/-- A drawing that begins has copied nothing yet, -/
theorem copyIs_of_drawing {r : ρ}
    (hstep : (boxSpec spec asks view s₀).step p (some (.own .drawing)) q) : CopyIs r q := by
  cases hstep with
  | visible hk =>
    cases hk with
    | draw _ => exact trivial
  | joint hsee _ _ => cases (boxSee_eq_some hsee).2

/-- and one that ends shows what it has copied. -/
theorem CopyIs.drawn {r r' : ρ} (h : CopyIs r p)
    (hstep : (boxSpec spec asks view s₀).step p (some (.own (.drawn r'))) q) : r' = r := by
  cases hstep with
  | visible hk =>
    cases hk with
    | drawn hui =>
      unfold CopyIs at h
      rw [show _ = DrawPlace.copied r' from hui] at h
      exact h
  | joint hsee _ _ => cases (boxSee_eq_some hsee).2

/-- **What happens at a frozen box**: what is drawn, having begun since, is the
object. -/
theorem Frozen.run (h : Frozen s p) {u : List (BoxEvent M ε ρ)}
    (hrun : (boxSpec spec asks view s₀).Run p u q) :
    Frozen s q ∧ (∀ e ∈ u, Aftermath e) ∧ (.own .drawing ∈ u → CopyIs (view s) q)
      ∧ ∀ r, [.own .drawing, .own (.drawn r)].Sublist u → r = view s := by
  induction hrun with
  | refl => exact ⟨h, nofun, nofun, fun r hr => nomatch List.sublist_nil.mp hr⟩
  | @tail p' q u l _ hstep ih =>
    obtain ⟨hfrozen, hevents, hcopy, hdrawn⟩ := ih
    obtain ⟨hfrozen', hevent⟩ := hfrozen.step hstep
    refine ⟨hfrozen', ?_⟩
    cases l with
    | none =>
      rw [Option.toList_none, List.append_nil]
      exact ⟨hevents, fun hmem => (hcopy hmem).step hfrozen hstep, hdrawn⟩
    | some e =>
      refine ⟨List.forall_mem_append.mpr ⟨hevents, List.forall_mem_singleton.mpr (hevent e rfl)⟩,
        fun hmem => ?_, fun r hr => ?_⟩
      · rcases List.mem_append.mp hmem with hmem | hmem
        · exact (hcopy hmem).step hfrozen hstep
        · obtain rfl := List.mem_singleton.mp hmem
          exact copyIs_of_drawing hstep
      · rcases sublist_concat hr with hr | ⟨hmem, rfl⟩
        · exact hdrawn r hr
        · exact (hcopy hmem).drawn hstep

variable {k : BoxClient M ε ρ} {a : Monitor.Atomic BoxThread σ (BoxOp M) (BoxReply ε ρ)}
  {t u : List (BoxEvent M ε ρ)}

/-- A box whose worker has kept an exception is frozen, with its object as the
messages taken have left it. -/
theorem frozen_of_threw (h : (boxSpec spec asks view s₀).Reaches t (k, a)) {e : ε}
    (hthrew : (seen t).threw = some e) :
    Frozen (stateAfter spec s₀ (seen t).taken) (k, a) := by
  obtain ⟨n, ks, hinv⟩ := boxInv_of_reaches h
  have hwork := hinv.work
  have hplace : k.worker = .failed := by
    cases hw : k.worker with
    | failed => rfl
    | handling =>
      rw [hw, hthrew] at hwork
      cases hwork.1
    | _ =>
      rw [hw, hthrew] at hwork
      cases hwork.2.1
  rw [hplace] at hwork
  have hstate := hwork.boundary.state
  obtain ⟨hidle, -, -, -, -, -, -, rfl⟩ := hwork
  rw [List.take_length] at hstate
  refine ⟨hplace, hidle, hstate, fun op hop => ?_⟩
  have hdraws := hinv.draws
  rw [show a.status .ui = _ from hop] at hdraws
  exact hdraws.called.2.1

/-- Nothing of what can still happen takes a message or announces one. -/
theorem seen_aftermath (h : ∀ e ∈ u, Aftermath e) :
    (seen (t ++ u)).dequeued = (seen t).dequeued ∧ (seen (t ++ u)).posted = (seen t).posted := by
  induction u using List.reverseRecOn with
  | nil =>
    rw [List.append_nil]
    exact ⟨rfl, rfl⟩
  | append_singleton u e ih =>
    obtain ⟨hu, he⟩ := List.forall_mem_append.mp h
    obtain ⟨hdequeued, hposted⟩ := ih hu
    rw [← List.append_assoc, seen_concat, ← hdequeued, ← hposted]
    cases he e (List.mem_singleton_self e) <;> exact ⟨rfl, rfl⟩

/-- **A box that shows one thing**, from a moment on: no message is taken off its
queue any more, no redraw is asked for, be it after a message or by the
handler, and what is drawn, having begun since, is `r`. -/
structure ShowsOnly (t u : List (BoxEvent M ε ρ)) (r : ρ) : Prop where
  taken : (seen (t ++ u)).taken = (seen t).taken
  posted : (seen (t ++ u)).posted = (seen t).posted
  postedInside : .own .postedInside ∉ u
  drawn : ∀ r', [.own .drawing, .own (.drawn r')].Sublist u → r' = r

theorem Codes.frozen {handler : M → Resumption σ (Except ε Unit)} {reader : Resumption σ ρ}
    (h : Codes handler reader spec asks view) (ht : (box handler reader s₀).Trace (t ++ u)) {e : ε}
    (hthrew : (seen t).threw = some e) :
    ShowsOnly t u (view (stateAfter spec s₀ (seen t).taken)) := by
  obtain ⟨⟨k, a⟩, q, hreach, hrun⟩ := ((h.refines s₀).trace ht).exists_of_append
  obtain ⟨-, hevents, -, hdrawn⟩ := (frozen_of_threw hreach hthrew).run hrun
  obtain ⟨hdequeued, hposted⟩ := seen_aftermath (t := t) hevents
  refine ⟨congrArg (List.map Prod.snd) hdequeued, hposted, fun hmem => ?_, hdrawn⟩
  cases hevents _ hmem

end Box

/-! ## The program -/

section Program

variable {δ : Type} {toUint64 : δ → UInt64 → UInt64} {maxDepth : UInt16} {b₀ : Core.OrderBook}
  {t u : List (ProgramEvent δ)}

/-- **A failure freezes a box for good.** Once a worker has kept an exception,
then whatever the rest of the program does, however much is delivered and
however often the box is drawn, no message more is taken, and every drawing
that begins from then on shows the book, or the ring, as the message on which
the handler threw has left it. -/
theorem failure_freezes (h : (program toUint64 maxDepth b₀).Trace (t ++ u)) :
    (∀ e, (orderSeen t).threw = some e →
        ShowsOnly (t.filterMap orderPart) (u.filterMap orderPart)
          (bookAfter toUint64 maxDepth b₀ (orderSeen t).taken).toVector)
      ∧ ∀ e, (tradeSeen t).threw = some e →
        ShowsOnly (t.filterMap tradePart) (u.filterMap tradePart)
          (stateAfter (TradeBox.onTrade toUint64) RingBuffer.empty (tradeSeen t).taken).items := by
  have horder := trace_left_of_beside h
  have htrade := trace_right_of_beside h
  rw [List.filterMap_append] at horder htrade
  refine ⟨fun e he => ?_, fun e he => (tradeCodes toUint64).frozen htrade he⟩
  rw [bookAfter, ← handleAll_applyMessage]
  exact (orderCodes toUint64 maxDepth).frozen horder he

/-- After the worker has failed, another snapshot stays on the queue. -/
def frozenRun : List (ProgramEvent ℕ) :=
  [.delivered 0 ⟨pxSessionQualifier, .snapshot sampleSnapshot⟩, .order .drawing,
    .order (.drawn Core.OrderBook.empty.toVector)]

theorem trace_frozenRun : (program sampleTicks 100 .empty).Trace (failedRun ++ frozenRun) := by
  have hcodes := orderCodes sampleTicks 100
  obtain ⟨k, hk, hui⟩ := exists_run_failed
  have hmore := (hk.trans (Machine.Run.single (AttachStep.visible
    (BoxStep.enqueue 0 (.snapshot sampleSnapshot))))).trans
      (run_of_drawing hui (hcodes.reader .empty) (hcodes.quiet .empty))
  exact trace_of_order (t := failedRun ++ frozenRun) hmore rfl

/-- The book is drawn empty, as the second snapshot left it. -/
theorem failure_freezes_uncounted :
    (orderSeen failedRun).threw = some (.fieldNotFound Tag.noMDEntries)
      ∧ bookAfter sampleTicks 100 .empty (orderSeen failedRun).taken = .empty
      ∧ ShowsOnly (failedRun.filterMap orderPart) (frozenRun.filterMap orderPart)
          (bookAfter sampleTicks 100 .empty (orderSeen failedRun).taken).toVector
      ∧ (orderSeen (failedRun ++ frozenRun)).drawings
        = [⟨1, 1, 2, Core.OrderBook.empty.toVector⟩] :=
  ⟨rfl, rfl, (failure_freezes trace_frozenRun).1 _ rfl, rfl⟩

end Program

end Ui
