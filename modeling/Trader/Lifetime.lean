import Mathlib.Data.Set.Basic
import Trader.Transition

set_option autoImplicit false

/-!
# Lifetimes of objects that threads use

Objects are declared one after another and destroyed in the reverse order, as
the members of a class and the variables of a block are. Threads use them
meanwhile. A thread has a handle among the objects, and the destructor of the
handle waits for the thread.

Nothing else orders the two: a thread may go on with what it does while
objects are destroyed, and may end at any time. So whether a thread can use an
object that has been destroyed is a matter of the order of declaration alone:
it can exactly if the object is declared after the thread's handle
(`Layout.dangles_iff`).
-/

namespace Lifetime

open Transition

/-- **Objects in the order of their declaration**, and the threads that use them. -/
structure Layout (O T : Type) where
  declared : List O
  nodup : declared.Nodup
  /-- The object whose destructor waits for the thread. -/
  handle : T → O
  handle_injective : Function.Injective handle
  handle_mem : ∀ t, handle t ∈ declared
  uses : T → List O
  uses_mem : ∀ t, ∀ o ∈ uses t, o ∈ declared

variable {O T : Type}

/-- What happens while objects are destroyed. -/
inductive Event (O T : Type) where
  | used (t : T) (o : O)
  | ended (t : T)
  | destroyed (o : O)

/-- The objects that have not been destroyed, and the threads that have not ended. -/
structure State (O T : Type) where
  alive : List O
  running : Set T

/-- **A step**: a thread that runs uses one of its objects or ends, or the last
object is destroyed, once the thread it waits for has ended. -/
inductive Step (L : Layout O T) : State O T → Option (Event O T) → State O T → Prop
  | used {s : State O T} {t : T} {o : O} (ht : t ∈ s.running) (ho : o ∈ L.uses t) :
    Step L s (some (.used t o)) s
  | ended {s : State O T} {t : T} (ht : t ∈ s.running) :
    Step L s (some (.ended t)) { s with running := s.running \ {t} }
  | destroyed {s : State O T} {rest : List O} {o : O} (hlast : s.alive = rest ++ [o])
    (hwait : ∀ t, L.handle t = o → t ∉ s.running) :
    Step L s (some (.destroyed o)) { s with alive := rest }

namespace Layout

variable (L : Layout O T)

/-- Everything is there, and every thread runs. -/
def full : State O T := ⟨L.declared, Set.univ⟩

/-- **The objects as they are destroyed.** -/
def teardown : Machine (State O T) (Event O T) := ⟨fun s => s = L.full, Step L⟩

/-- **A thread can use an object that has been destroyed.** -/
def Dangles (t : T) (o : O) : Prop :=
  ∃ u, L.teardown.Trace (u ++ [.used t o]) ∧ .destroyed o ∈ u

variable {L} {u : List (Event O T)} {s : State O T}

/-- What stands: the objects declared first, the handles of all threads that run
among them. -/
structure Standing (L : Layout O T) (u : List (Event O T)) (s : State O T) : Prop where
  first : s.alive <+: L.declared
  handles : ∀ t ∈ s.running, L.handle t ∈ s.alive
  gone : ∀ o, .destroyed o ∈ u → o ∉ s.alive

/-- An event that destroys nothing and lets no thread start. -/
theorem Standing.same (h : Standing L u s) {s' : State O T} {e : Event O T}
    (halive : s'.alive = s.alive) (hrunning : s'.running ⊆ s.running)
    (he : ∀ o, e ≠ .destroyed o) : Standing L (u ++ [e]) s' := by
  refine ⟨halive ▸ h.first, fun t ht => ?_, fun o ho => ?_⟩
  · rw [halive]
    exact h.handles t (hrunning ht)
  · rw [halive]
    rcases List.mem_append.mp ho with ho | ho
    · exact h.gone o ho
    · exact (he o (List.mem_singleton.mp ho).symm).elim

/-- **Every step keeps it.** -/
theorem Standing.step (h : Standing L u s) {s' : State O T} {l : Option (Event O T)}
    (hstep : Step L s l s') : Standing L (u ++ l.toList) s' := by
  cases hstep with
  | used _ _ => exact h.same rfl (fun _ ht => ht) nofun
  | ended _ => exact h.same rfl (fun _ ht => ht.1) nofun
  | @destroyed rest o hlast hwait =>
    have hnodup : (rest ++ [o]).Nodup := hlast ▸ L.nodup.sublist h.first.sublist
    refine ⟨?_, fun t ht => ?_, fun o' ho' => ?_⟩
    · exact (List.prefix_append rest [o]).trans (hlast ▸ h.first)
    · have hmem := h.handles t ht
      rw [hlast] at hmem
      rcases List.mem_append.mp hmem with hmem | hmem
      · exact hmem
      · exact (hwait t (List.mem_singleton.mp hmem) ht).elim
    · rcases List.mem_append.mp ho' with ho' | ho'
      · have hgone := h.gone o' ho'
        rw [hlast] at hgone
        exact fun hrest => hgone (List.mem_append_left _ hrest)
      · obtain rfl := Event.destroyed.inj (List.mem_singleton.mp ho')
        exact fun hrest =>
          (List.nodup_append.mp hnodup).2.2 _ hrest _ (List.mem_singleton_self _) rfl

theorem standing_of_reaches (h : L.teardown.Reaches u s) : Standing L u s := by
  obtain ⟨s₀, hs₀, hrun⟩ := h
  obtain rfl : s₀ = L.full := hs₀
  induction hrun with
  | refl => exact ⟨List.prefix_refl _, fun t _ => L.handle_mem t, nofun⟩
  | tail _ hstep ih => exact ih.step hstep

/-- **Everything after a place can be destroyed** while a thread runs whose handle
is before it. -/
theorem exists_run_destroying {t : T} {pre : List O} (suf : List O)
    (hsplit : L.declared = pre ++ suf) (ht : L.handle t ∈ pre) :
    ∃ u s, L.teardown.Run L.full u s ∧ s.alive = pre ∧ t ∈ s.running
      ∧ ∀ o ∈ suf, .destroyed o ∈ u := by
  induction suf generalizing pre with
  | nil => exact ⟨[], L.full, .refl, hsplit.trans (List.append_nil pre), Set.mem_univ t, nofun⟩
  | cons o suf ih =>
    have hsplit' : L.declared = (pre ++ [o]) ++ suf := hsplit.trans (List.append_cons pre o suf)
    obtain ⟨u, s, hrun, halive, hrunning, hgone⟩ := ih hsplit' (List.mem_append_left [o] ht)
    have hnodup : (pre ++ o :: suf).Nodup := hsplit ▸ L.nodup
    have hne : L.handle t ≠ o :=
      (List.nodup_append.mp hnodup).2.2 _ ht o List.mem_cons_self
    -- the thread that is waited for, if there is one, ends first
    obtain ⟨v, s', hmore, halive', hrunning', hwait⟩ : ∃ v s', L.teardown.Run s v s'
        ∧ s'.alive = s.alive ∧ t ∈ s'.running ∧ ∀ t', L.handle t' = o → t' ∉ s'.running := by
      by_cases hother : ∃ t', L.handle t' = o ∧ t' ∈ s.running
      · obtain ⟨t', ht', hrun'⟩ := hother
        refine ⟨_, _, Machine.Run.single (Step.ended hrun'), rfl, ⟨hrunning, ?_⟩, ?_⟩
        · exact fun heq => hne (heq ▸ ht')
        · exact fun t'' ht'' hmem => hmem.2 (L.handle_injective (ht''.trans ht'.symm))
      · exact ⟨[], s, .refl, rfl, hrunning, fun t' ht' hrun' => hother ⟨t', ht', hrun'⟩⟩
    have hlast : s'.alive = pre ++ [o] := halive'.trans halive
    refine ⟨_, _, (hrun.trans hmore).tail (Step.destroyed hlast hwait), rfl, hrunning', ?_⟩
    intro o' ho'
    rcases List.mem_cons.mp ho' with rfl | ho'
    · exact List.mem_append_right _ (List.mem_singleton_self _)
    · exact List.mem_append_left _ (List.mem_append_left _ (hgone o' ho'))

/-- **What a thread can use after it has been destroyed** is what is declared after
its handle. -/
theorem dangles_iff (L : Layout O T) (t : T) (o : O) :
    L.Dangles t o ↔ o ∈ L.uses t ∧ [L.handle t, o].Sublist L.declared := by
  constructor
  · rintro ⟨u, htrace, hgone⟩
    obtain ⟨s, s', hreach, hrun⟩ := htrace.exists_of_append
    obtain ⟨s₁, s₂, hpre, hlast, -⟩ := hrun.exists_last (List.nil_append _).symm
    obtain ⟨s₀, hs₀, hreach⟩ := hreach
    have hstanding := standing_of_reaches ⟨s₀, hs₀, hreach.trans hpre⟩
    rw [List.append_nil] at hstanding
    cases hlast with
    | used ht ho =>
      refine ⟨ho, ?_⟩
      obtain ⟨dead, hdead⟩ := hstanding.first
      have hmem := L.uses_mem t o ho
      rw [← hdead] at hmem ⊢
      rcases List.mem_append.mp hmem with hmem | hmem
      · exact (hstanding.gone o hgone hmem).elim
      · exact (List.singleton_sublist.mpr (hstanding.handles t ht)).append
          (List.singleton_sublist.mpr hmem)
  · rintro ⟨ho, hsub⟩
    obtain ⟨r₁, r₂, hsplit, ht, hrest⟩ := List.cons_sublist_iff.mp hsub
    obtain ⟨mid, post, rfl⟩ := List.append_of_mem (List.singleton_sublist.mp hrest)
    obtain ⟨u, s, hrun, -, hrunning, hgone⟩ := exists_run_destroying (o :: post)
      (hsplit.trans (List.append_assoc r₁ mid _).symm) (List.mem_append_left mid ht)
    exact ⟨u, ⟨s, L.full, rfl, hrun.tail (Step.used hrunning ho)⟩, hgone o List.mem_cons_self⟩

end Layout

end Lifetime
