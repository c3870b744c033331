import Trader.BoxRuns

set_option autoImplicit false

/-!
# Several threads on one queue

Every time a session connects, its messages come on another thread, and of
the queue only the order of each thread's own messages is promised. So what
is taken off it is in the order in which it was put there only as long as
no two threads have something waiting: as long as a thread puts a message on
the queue only when what others had put there has been taken off it
(`Calm`). Then it is, whatever the threads of the box do
(`taken_prefix_of_calm`), and one thread at most has anything waiting
(`Waiting`).
-/

namespace Ui

open Fix EarlyExit Transition

variable {M ε ρ σ : Type}

/-- The message an event puts on the queue, if it does. -/
def BoxEvent.put : BoxEvent M ε ρ → Option M
  | .enqueued _ msg => some msg
  | .own _ => none

/-- Everything that was put on the queue, in that order. -/
def everythingPut (t : List (BoxEvent M ε ρ)) : List M := t.filterMap BoxEvent.put

/-- **A calm trace**: whenever a thread puts a message on the queue, what
others had put there has been taken off it. -/
def Calm (t : List (BoxEvent M ε ρ)) : Prop :=
  ∀ u i msg, u ++ [.enqueued i msg] <+: t →
    ∀ j, j ≠ i → (seen u).takenFrom j = (seen u).enqueued j

/-- At every moment the messages taken of a thread are the first ones it put
on the queue. -/
def InOrder (t : List (BoxEvent M ε ρ)) : Prop :=
  ∀ u, u <+: t → ∀ i, (seen u).takenFrom i <+: (seen u).enqueued i

/-- **What is waiting** on the queue is of thread `i`, and was put there after
everything that was taken. -/
structure Waiting (t : List (BoxEvent M ε ρ)) (i : ℕ) (rest : List M) : Prop where
  others : ∀ j, j ≠ i → (seen t).takenFrom j = (seen t).enqueued j
  own : (seen t).enqueued i = (seen t).takenFrom i ++ rest
  put : everythingPut t = (seen t).taken ++ rest

section Calm

variable {t u : List (BoxEvent M ε ρ)} {i : ℕ} {rest : List M}

theorem Calm.of_prefix (h : Calm t) (hu : u <+: t) : Calm u :=
  fun v i msg hv => h v i msg (hv.trans hu)

theorem InOrder.of_prefix (h : InOrder t) (hu : u <+: t) : InOrder u :=
  fun v hv => h v (hv.trans hu)

theorem everythingPut_append (t u : List (BoxEvent M ε ρ)) :
    everythingPut (t ++ u) = everythingPut t ++ everythingPut u := List.filterMap_append

/-- The threads of a box put nothing on its queue. -/
theorem everythingPut_own (u : List (BoxAct M ε ρ)) : everythingPut (u.map .own) = [] := by
  unfold everythingPut
  rw [List.filterMap_map]
  exact List.filterMap_eq_nil_iff.mpr (fun _ _ => rfl)

/-- A message more is put on the queue by the thread that has something
waiting, or by any when nothing is. -/
theorem Waiting.enqueued (h : Waiting t i rest) {j : ℕ} (msg : M)
    (hcalm : ∀ c, c ≠ j → (seen t).takenFrom c = (seen t).enqueued c) :
    ∃ rest', Waiting (t ++ [.enqueued j msg]) j rest' := by
  have hput : everythingPut (t ++ [.enqueued j msg]) = everythingPut t ++ [msg] :=
    everythingPut_append t _
  refine ⟨rest ++ [msg], fun c hc => ?_, ?_, ?_⟩
  · rw [seen_concat]
    show (seen t).takenFrom c = Function.update (seen t).enqueued j _ c
    rw [Function.update_of_ne hc, hcalm c hc]
  · rw [seen_concat]
    show Function.update (seen t).enqueued j ((seen t).enqueued j ++ [msg]) j = _
    rw [Function.update_self]
    show (seen t).enqueued j ++ [msg] = (seen t).takenFrom j ++ (rest ++ [msg])
    by_cases hij : j = i
    · rw [hij, h.own, List.append_assoc]
    · -- nothing is waiting
      have hown := h.own
      rw [hcalm i (Ne.symm hij), List.self_eq_append_right] at hown
      rw [hown, h.others j hij, List.nil_append]
  · rw [hput, h.put, seen_concat, List.append_assoc]
    rfl

/-- A message is taken of the thread that has something waiting, and is the
first of it. -/
theorem Waiting.dequeued (h : Waiting t i rest) {j : ℕ} {msg : M}
    (horder : (seen (t ++ [.own (.dequeued j msg)])).takenFrom j
      <+: (seen (t ++ [.own (.dequeued j msg)])).enqueued j) :
    ∃ rest', Waiting (t ++ [.own (.dequeued j msg)]) i rest' := by
  rw [seen_concat, Seen.takenFrom_note_dequeued, if_pos rfl] at horder
  replace horder : (seen t).takenFrom j ++ [msg] <+: (seen t).enqueued j := horder
  obtain rfl : j = i := by
    by_contra hne
    rw [h.others j hne] at horder
    have hlen := horder.length_le
    rw [List.length_append, List.length_singleton] at hlen
    omega
  rw [h.own, List.prefix_append_right_inj] at horder
  obtain ⟨rest', rfl⟩ := horder
  have hput : everythingPut (t ++ [.own (.dequeued j msg)]) = everythingPut t :=
    (everythingPut_append t _).trans (List.append_nil _)
  refine ⟨rest', fun c hc => ?_, ?_, ?_⟩
  · rw [seen_concat, Seen.takenFrom_note_dequeued, if_neg hc, List.append_nil]
    exact h.others c hc
  · rw [seen_concat, Seen.takenFrom_note_dequeued, if_pos rfl, List.append_assoc]
    exact h.own
  · rw [hput, h.put, seen_concat, Seen.taken_note_dequeued, List.append_assoc]

/-- **In a calm trace one thread at most has something waiting.** -/
theorem exists_waiting (horder : InOrder t) (hcalm : Calm t) : ∃ i rest, Waiting t i rest := by
  induction t using List.reverseRecOn with
  | nil => exact ⟨0, [], fun _ _ => rfl, rfl, rfl⟩
  | append_singleton t e ih =>
    have hpre : t <+: t ++ [e] := List.prefix_append t [e]
    obtain ⟨i, rest, h⟩ := ih (horder.of_prefix hpre) (hcalm.of_prefix hpre)
    cases e with
    | enqueued j msg =>
      obtain ⟨rest', h'⟩ := h.enqueued msg (hcalm t j msg (List.prefix_refl _))
      exact ⟨j, rest', h'⟩
    | own act =>
      have hput : everythingPut (t ++ [.own act]) = everythingPut t :=
        (everythingPut_append t _).trans (List.append_nil _)
      cases act with
      | dequeued j msg =>
        obtain ⟨rest', h'⟩ := h.dequeued (horder _ (List.prefix_refl _) j)
        exact ⟨i, rest', h'⟩
      | _ => exact ⟨i, rest, by rw [seen_concat]; exact h.others, by rw [seen_concat]; exact h.own,
          by rw [hput, seen_concat]; exact h.put⟩

/-- **What is taken off a calm queue** is what was put there first, by all
threads together. -/
theorem taken_prefix_of_calm (horder : InOrder t) (hcalm : Calm t) :
    (seen t).taken <+: everythingPut t := by
  obtain ⟨i, rest, h⟩ := exists_waiting horder hcalm
  exact ⟨rest, h.put.symm⟩

/-- A queue that one thread puts messages on is calm. -/
theorem calm_of_only (h : ∀ j, j ≠ i → (seen t).enqueued j = []) (horder : InOrder t) :
    Calm t := by
  have honly : ∀ u, u <+: t → ∀ j, j ≠ i → (seen u).enqueued j = [] := by
    rintro u ⟨v, rfl⟩ j hj
    have hnone := h j hj
    rw [enqueued_seen, List.filterMap_append, ← enqueued_seen] at hnone
    exact (List.append_eq_nil_iff.mp hnone).1
  intro u j msg hu k hk
  obtain rfl : j = i := by
    by_contra hne
    have hnone := honly _ hu j hne
    rw [seen_concat] at hnone
    replace hnone : Function.update (seen u).enqueued j _ j = [] := hnone
    rw [Function.update_self] at hnone
    exact absurd hnone (List.append_ne_nil_of_right_ne_nil _ (List.cons_ne_nil _ _))
  have hpre : u <+: t := (List.prefix_append u _).trans hu
  have hnone := honly u hpre k hk
  have htaken := horder u hpre k
  rw [hnone] at htaken ⊢
  exact List.prefix_nil.mp htaken

theorem Calm.concat (h : Calm t) {e : BoxEvent M ε ρ} (he : ∀ i msg, e = .enqueued i msg →
    ∀ j, j ≠ i → (seen t).takenFrom j = (seen t).enqueued j) : Calm (t ++ [e]) := by
  intro u i msg hu
  rcases List.prefix_concat_iff.mp hu with heq | hpre
  · obtain ⟨rfl, hlast⟩ := List.append_inj' heq rfl
    exact he i msg (List.singleton_inj.mp hlast).symm
  · exact h u i msg hpre

/-- What the threads of the box do stays calm. -/
theorem Calm.append_own (h : Calm t) (u : List (BoxAct M ε ρ)) : Calm (t ++ u.map .own) := by
  induction u using List.reverseRecOn with
  | nil =>
    rw [List.map_nil, List.append_nil]
    exact h
  | append_singleton u act ih =>
    rw [List.map_append, ← List.append_assoc]
    exact ih.concat nofun

/-- A message put on the queue, taken and announced at once. -/
def atOnce (p : ℕ × M) : List (BoxEvent M ε ρ) :=
  [.enqueued p.1 p.2, .own (.dequeued p.1 p.2), .own .posted]

/-- Messages handled at once, whoever they are of, are calm. -/
theorem calm_atOnce (ms : List (ℕ × M)) :
    Calm (ms.flatMap atOnce : List (BoxEvent M ε ρ)) ∧ ∀ j,
      (seen (ms.flatMap atOnce : List (BoxEvent M ε ρ))).takenFrom j
        = (seen (ms.flatMap atOnce : List (BoxEvent M ε ρ))).enqueued j := by
  induction ms using List.reverseRecOn with
  | nil =>
    refine ⟨fun u i msg hu => ?_, fun j => rfl⟩
    exact absurd (List.prefix_nil.mp hu)
      (List.append_ne_nil_of_right_ne_nil u (List.cons_ne_nil _ _))
  | append_singleton ms p ih =>
    obtain ⟨hcalm, hall⟩ := ih
    rw [List.flatMap_append, List.flatMap_singleton]
    constructor
    · have hput := hcalm.concat (e := .enqueued p.1 p.2) (fun _ _ _ j _ => hall j)
      have hown := hput.append_own [.dequeued p.1 p.2, .posted]
      rw [List.append_assoc] at hown
      exact hown
    · intro j
      have hseen : ∀ u : List (BoxEvent M ε ρ), seen (u ++ atOnce p)
          = (((seen u).note (.enqueued p.1 p.2)).note (.own (.dequeued p.1 p.2))).note
              (.own .posted) := fun u => List.foldl_append
      rw [hseen]
      show (((seen _).note (.enqueued p.1 p.2)).note (.own (.dequeued p.1 p.2))).takenFrom j
        = Function.update (seen _).enqueued p.1 ((seen _).enqueued p.1 ++ [p.2]) j
      rw [Seen.takenFrom_note_dequeued]
      show (seen _).takenFrom j ++ _ = _
      rw [hall j]
      by_cases hj : j = p.1
      · rw [if_pos hj, hj, Function.update_self]
      · rw [if_neg hj, Function.update_of_ne hj, List.append_nil]

end Calm

/-! ## A box in a calm trace -/

section Box

variable {handler : M → Resumption σ (Except ε Unit)} {reader : Resumption σ ρ}
  {spec : M → EStateM ε σ Unit} {asks : ℕ → σ → σ → Prop} {view : σ → ρ} {s₀ : σ}
  {t : List (BoxEvent M ε ρ)}

theorem Codes.inOrder (h : Codes handler reader spec asks view)
    (ht : (box handler reader s₀).Trace t) : InOrder t :=
  fun _ hu i => (h.works (ht.of_prefix hu)).inOrder i

/-- **A drawing that began after every redraw was asked for** shows the
object after all messages, of which none has failed. -/
theorem Works.drawn_all (h : Works spec view s₀ (seen t))
    (hfirst : (seen t).taken <+: everythingPut t) {v : Drawing ρ} (hv : v ∈ (seen t).drawings)
    (hposted : v.postedBefore = (everythingPut t).length) :
    ∃ s, Resumption.outcome (handleAll spec (everythingPut t)) s₀ = (.ok (), s)
      ∧ v.drawn = view s := by
  obtain ⟨j, hshows⟩ := h.shows hv
  have hfresh := hshows.postedBefore_le
  have hknown := hshows.known
  have htaken := hshows.taken_le
  have hdrawn := hshows.drawn
  -- what was announced, shown, taken and put on the queue is all the same number
  have hle := hfirst.length_le
  have hall : (seen t).taken = everythingPut t := hfirst.eq_of_length (by omega)
  have hann := (postedBefore_le t).2 _ hv
  obtain ⟨s, hs⟩ := h.handled
  rw [List.take_of_length_le (by omega), hall] at hs
  rw [List.take_of_length_le (by omega), hall, stateAfter, hs] at hdrawn
  exact ⟨s, hs, hdrawn⟩

/-- A box whose handler asks for nothing takes and handles each message at
once. -/
theorem Codes.run_atOnce (h : Codes handler reader spec Resumption.Silent view)
    {ms : List (ℕ × M)} {s s' : σ}
    (hall : Resumption.outcome (handleAll spec (ms.map Prod.snd)) s = (.ok (), s')) :
    (box handler reader s₀).Run (.init, Monitor.unattended s) (ms.flatMap atOnce)
      (.init, Monitor.unattended s') := by
  induction ms generalizing s with
  | nil =>
    obtain ⟨-, rfl⟩ := Prod.mk.inj hall
    exact Machine.Run.refl
  | cons p ms ih =>
    obtain ⟨u, s₁, hmsg, hmore⟩ := bind_ok_iff.mp (Resumption.run_of_outcome_ok hall)
    have hquiet : (handler p.2).told s = 0 := (h.handler p.2 s).2
    have hrun : (box handler reader s₀).Run (.offered p.1 p.2, Monitor.unattended s) _ _ :=
      run_of_message rfl rfl (BoxClient.backlog_offered p.1 p.2) (h.run_of_ok hmsg)
    rw [hquiet] at hrun
    -- the worker is back where it started, with nothing on the queue
    rw [BoxClient.update_offered] at hrun
    have hput := Machine.Run.single (S := box handler reader s₀)
      (step_offered (s := s) p.1 p.2)
    exact (hput.trans hrun).trans (ih (Resumption.outcome_of_ok hmore))

end Box

end Ui
