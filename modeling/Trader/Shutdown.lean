import Trader.BoxRuns

set_option autoImplicit false

/-!
# A box can always be shut down

The destructor of a box asks its worker to stop and waits for it to end. The
worker may stand anywhere in `poll_queue` then, in the handler with the lock
or at the lock while the UI thread has it, and the handler may be about to
throw. Wherever it stands, it can end: the operations of both threads come
to an end, so the lock comes free, and no test of the stop token is left out
on the way (`Codes.ends`).
-/

namespace Ui

open Fix EarlyExit Transition

variable {M ε ρ σ : Type}

/-- The worker has ended, and `join` returns. -/
def BoxClient.Ended (k : BoxClient M ε ρ) : Prop := k.worker = .returned ∨ k.worker = .failed

section Ends

variable {handler : M → Resumption σ (Except ε Unit)} {reader : Resumption σ ρ} {s₀ : σ}
  {k k' : BoxClient M ε ρ} {c c' : Monitor.Locked BoxThread σ (BoxOp M) (BoxReply ε ρ)}

/-- A box can go on so that its worker ends, without taking another message. -/
def Ends (handler : M → Resumption σ (Except ε Unit)) (reader : Resumption σ ρ) (s₀ : σ)
    (k : BoxClient M ε ρ) (c : Monitor.Locked BoxThread σ (BoxOp M) (BoxReply ε ρ)) : Prop :=
  ∃ (u : List (BoxAct M ε ρ)) (k' : BoxClient M ε ρ)
    (c' : Monitor.Locked BoxThread σ (BoxOp M) (BoxReply ε ρ)),
    (box handler reader s₀).Run (k, c) (u.map .own) (k', c') ∧ k'.Ended
      ∧ ∀ act ∈ u, ∀ i msg, act ≠ .dequeued i msg

theorem ends_of_ended (h : k.Ended) : Ends handler reader s₀ k c :=
  ⟨[], k, c, Machine.Run.refl, h, nofun⟩

theorem ends_of_run {v : List (BoxAct M ε ρ)}
    (hrun : (box handler reader s₀).Run (k, c) (v.map .own) (k', c'))
    (hv : ∀ act ∈ v, ∀ i msg, act ≠ .dequeued i msg) (h : Ends handler reader s₀ k' c') :
    Ends handler reader s₀ k c := by
  obtain ⟨u, k'', c'', hmore, hend, hnone⟩ := h
  refine ⟨v ++ u, k'', c'', ?_, hend, List.forall_mem_append.mpr ⟨hv, hnone⟩⟩
  rw [List.map_append]
  exact hrun.trans hmore

theorem ends_of_visible {act : BoxAct M ε ρ} (hstep : BoxStep k (some (.inl (.own act))) k')
    (hact : ∀ i msg, act ≠ .dequeued i msg) (h : Ends handler reader s₀ k' c) :
    Ends handler reader s₀ k c :=
  ends_of_run (v := [act]) (Machine.Run.refl.tail (l := some _) (AttachStep.visible hstep))
    (List.forall_mem_singleton.mpr hact) h

theorem ends_of_silent (hstep : BoxStep k none k') (h : Ends handler reader s₀ k' c) :
    Ends handler reader s₀ k c :=
  ends_of_run (v := []) (Machine.Run.refl.tail (l := none) (AttachStep.silent hstep)) nofun h

/-- What the handler does in the lock takes no message. -/
theorem ends_of_worker {n : ℕ} (hw : k.worker = .handling)
    (hrun : (Monitor.locked BoxThread (boxCode handler reader) s₀).Run c
      (List.replicate n (.told .worker)) c')
    (h : Ends handler reader s₀ k c') : Ends handler reader s₀ k c :=
  ends_of_run (run_of_worker hw hrun) (fun act hact => by
    rw [mem_postedWithin hact]
    exact nofun) h

theorem ends_of_joint {x : Monitor.Call BoxThread (BoxOp M) (BoxReply ε ρ)}
    (hk : BoxStep k (some (.inr x)) k') (hx : (boxSee x : Option (BoxEvent M ε ρ)) = none)
    (hc : Monitor.LockedStep (boxCode handler reader) c (some x) c')
    (h : Ends handler reader s₀ k' c') : Ends handler reader s₀ k c :=
  ends_of_run (v := []) (Machine.Run.refl.tail (l := none) (AttachStep.joint hx hk hc)) nofun h

/-! ## From each place of `poll_queue` -/

theorem ends_of_loop (hstop : k.stopRequested = true) (hw : k.worker = .loop) :
    Ends handler reader s₀ k c :=
  ends_of_visible (BoxStep.leave hw hstop) nofun (ends_of_ended (Or.inl rfl))

theorem ends_of_missed (hstop : k.stopRequested = true) (hw : k.worker = .missed) :
    Ends handler reader s₀ k c :=
  ends_of_visible (BoxStep.leaveEmpty hw hstop) nofun (ends_of_ended (Or.inl rfl))

theorem ends_of_dequeue (hstop : k.stopRequested = true) (hw : k.worker = .dequeue) :
    Ends handler reader s₀ k c :=
  ends_of_silent (BoxStep.miss hw) (ends_of_missed hstop rfl)

theorem ends_of_handled (hstop : k.stopRequested = true) (hw : k.worker = .handled) :
    Ends handler reader s₀ k c :=
  ends_of_visible (BoxStep.post hw) nofun (ends_of_loop hstop rfl)

theorem ends_of_caught {e : ε} (hw : k.worker = .caught e) : Ends handler reader s₀ k c :=
  ends_of_visible (BoxStep.keepException hw) nofun (ends_of_ended (Or.inr rfl))

/-- The handler has returned or thrown. -/
theorem ends_of_finished (hstop : k.stopRequested = true) (hw : k.worker = .handling)
    {r : Except ε Unit} (hc : c.place .worker = .finished (.handled r)) :
    Ends handler reader s₀ k c := by
  cases r with
  | ok u =>
    exact ends_of_joint (BoxStep.handled hw) rfl (Monitor.LockedStep.ret hc)
      (ends_of_handled hstop rfl)
  | error e =>
    exact ends_of_joint (BoxStep.threw hw) rfl (Monitor.LockedStep.ret hc) (ends_of_caught rfl)

/-- The worker is at the lock, which is free. -/
theorem ends_of_waiting (hstop : k.stopRequested = true) (hw : k.worker = .handling)
    (hfree : c.holder = none) {msg : M} (hc : c.place .worker = .waiting (.handle msg)) :
    Ends handler reader s₀ k c := by
  refine ends_of_worker hw (Monitor.run_of_waiting (boxCode handler reader) s₀ hc hfree) ?_
  refine ends_of_finished (r := ((handler msg).run c.state).1) hstop hw ?_
  rw [boxCode, Resumption.run_map]
  exact Monitor.Locked.place_update_self _ _ _ _ _

/-- **With the lock free the worker can end**, wherever it stands. -/
theorem ends_of_free (hstop : k.stopRequested = true) (hfree : c.holder = none)
    (hidle : ∀ msg, k.worker = .taken msg → c.place .worker = .idle)
    (hcalled : k.worker = .handling → (∃ msg, c.place .worker = .waiting (.handle msg))
      ∨ ∃ r, c.place .worker = .finished (.handled r)) :
    Ends handler reader s₀ k c := by
  cases hw : k.worker with
  | loop => exact ends_of_loop hstop hw
  | dequeue => exact ends_of_dequeue hstop hw
  | missed => exact ends_of_missed hstop hw
  | taken msg =>
    refine ends_of_joint (BoxStep.handle hw) rfl (Monitor.LockedStep.call _ (hidle msg hw)) ?_
    exact ends_of_waiting hstop rfl hfree (Monitor.Locked.place_update_self _ _ _ _ _)
  | handling =>
    rcases hcalled hw with ⟨msg, hwait⟩ | ⟨r, hfin⟩
    · exact ends_of_waiting hstop hw hfree hwait
    · exact ends_of_finished hstop hw hfin
  | handled => exact ends_of_handled hstop hw
  | caught e => exact ends_of_caught hw
  | returned => exact ends_of_ended (Or.inl hw)
  | failed => exact ends_of_ended (Or.inr hw)

/-! ## From every state -/

theorem held_of_reaches {t : List (BoxEvent M ε ρ)}
    (h : (box handler reader s₀).Reaches t (k, c)) : Monitor.Held c := by
  refine h.induction (I := fun _ p => Monitor.Held p.2) ?_ ?_ ?_
  · rintro ⟨k, c⟩ ⟨-, rfl⟩
    exact ⟨nofun, nofun⟩
  · rintro - p p' hheld hstep
    cases hstep with
    | silent _ => exact hheld
    | object hc => exact hheld.step hc
    | joint _ _ hc => exact hheld.step hc
  · rintro - p e p' hheld hstep
    cases hstep with
    | visible _ => exact hheld
    | joint _ _ hc => exact hheld.step hc

variable {spec : M → EStateM ε σ Unit} {asks : ℕ → σ → σ → Prop} {view : σ → ρ}

/-- Where the worker stands in its operation. -/
theorem Work.status {taken : List M} {posted n : ℕ} {threw : Option ε} {s : σ}
    {status : Monitor.Status (BoxOp M) (BoxReply ε ρ)} {p : PollPlace M ε}
    (h : Work spec s₀ taken posted threw n status s p) :
    (∀ msg, p = .taken msg → status = .idle)
      ∧ (p = .handling → (∃ msg, status = .called (.handle msg))
        ∨ ∃ left r, status = .done left (.handled r)) := by
  cases p with
  | taken msg => exact ⟨fun _ _ => h.1, nofun⟩
  | handling =>
    obtain ⟨-, msg, ⟨hop, -⟩ | ⟨s', left, r, -, hop, -⟩⟩ := h
    · exact ⟨nofun, fun _ => Or.inl ⟨msg, hop⟩⟩
    · exact ⟨nofun, fun _ => Or.inr ⟨left, r, hop⟩⟩
  | _ => exact ⟨nofun, nofun⟩

/-- What a thread outside the lock is at is what its operation says. -/
theorem place_of_standsFor {O R : Type} {s s' : σ} {p : Monitor.Place σ O R}
    {q : Monitor.Status O R} (h : Monitor.StandsFor s s' p q) (hp : p.Outside) :
    (q = .idle → p = .idle) ∧ (∀ op, q = .called op → p = .waiting op)
      ∧ ∀ left r, q = .done left r → p = .finished r := by
  cases p with
  | running p => exact hp.elim
  | idle =>
    obtain rfl := Monitor.standsFor_idle.mp h
    exact ⟨fun _ => rfl, nofun, nofun⟩
  | waiting op =>
    obtain rfl := Monitor.standsFor_waiting.mp h
    exact ⟨nofun, fun op' h' => congrArg _ (Monitor.Status.called.inj h'), nofun⟩
  | finished r =>
    obtain rfl := Monitor.standsFor_finished.mp h
    exact ⟨nofun, nofun, fun left r' h' => congrArg _ (Monitor.Status.done.inj h').2⟩

/-- With the lock free, -/
theorem Codes.ends_of_holder_none (h : Codes handler reader spec asks view)
    {t : List (BoxEvent M ε ρ)} (hreach : (box handler reader s₀).Reaches t (k, c))
    (hstop : k.stopRequested = true) (hfree : c.holder = none) :
    Ends handler reader s₀ k c := by
  obtain ⟨⟨k', a⟩, hspec, hk, hrel⟩ := (h.refines s₀).reaches hreach
  obtain rfl : k = k' := hk
  obtain ⟨n, ks, hinv⟩ := boxInv_of_reaches hspec
  obtain ⟨hidle, hcalled⟩ := hinv.work.status
  have hout : c.holder ≠ some .worker := by
    rw [hfree]
    exact nofun
  obtain ⟨hat, hwaiting, hfinished⟩ :=
    place_of_standsFor (hrel.stands .worker) (hrel.outside hout)
  refine ends_of_free hstop hfree (fun msg hw => hat (hidle msg hw)) (fun hw => ?_)
  rcases hcalled hw with ⟨msg, hop⟩ | ⟨left, r, hop⟩
  · exact Or.inl ⟨msg, hwaiting _ hop⟩
  · exact Or.inr ⟨r, hfinished _ _ hop⟩

/-- **Whoever has the lock can leave it**, with its operation run to the end:
the worker is in the handler, which may ask for redraws, and the UI thread in
the copy, which asks for none. -/
theorem Codes.run_of_holder (h : Codes handler reader spec asks view)
    {t : List (BoxEvent M ε ρ)} (hreach : (box handler reader s₀).Reaches t (k, c))
    {i : BoxThread} (hholder : c.holder = some i) :
    ∃ n c', (box handler reader s₀).Run (k, c) ((postedWithin n).map .own) (k, c')
      ∧ c'.holder = none := by
  obtain ⟨p, hp⟩ := (held_of_reaches hreach).holder i hholder
  have hrun := Monitor.run_of_running (boxCode handler reader) s₀ hp
  obtain ⟨⟨k', a⟩, hspec, hk, hrel⟩ := (h.refines s₀).reaches hreach
  obtain rfl : k = k' := hk
  obtain ⟨n, ks, hinv⟩ := boxInv_of_reaches hspec
  obtain ⟨-, r, hdone, -⟩ := Monitor.Rel.running hrel hp
  cases i with
  | worker =>
    have hwork := hinv.work
    rw [hdone] at hwork
    exact ⟨_, _, run_of_worker hwork.done.1 hrun, rfl⟩
  | ui =>
    have hdraws := hinv.draws
    rw [hdone] at hdraws
    obtain ⟨-, hnone, -⟩ := hdraws.done
    rw [hnone] at hrun
    exact ⟨0, _, run_attach_of_silent hrun k, rfl⟩

/-- **A box can always be shut down**: whatever has happened before a stop is
requested, the worker can end, and it need not take another message for
that. -/
theorem Codes.ends (h : Codes handler reader spec asks view) {t : List (BoxEvent M ε ρ)}
    (hreach : (box handler reader s₀).Reaches t (k, c)) (hstop : k.stopRequested = true) :
    Ends handler reader s₀ k c := by
  cases hholder : c.holder with
  | none => exact h.ends_of_holder_none hreach hstop hholder
  | some i =>
    obtain ⟨n, c', hrun, hfree⟩ := h.run_of_holder hreach hholder
    refine ends_of_run hrun (fun act hact => ?_)
      (h.ends_of_holder_none (hreach.run hrun) hstop hfree)
    rw [mem_postedWithin hact]
    exact nofun

end Ends

end Ui
