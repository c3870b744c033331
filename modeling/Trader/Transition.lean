import Mathlib.Data.List.Induction

set_option autoImplicit false

/-!
# Systems that take steps

A system takes steps, some seen from outside, each with a label, and some
silent. A run of it has a trace: the labels of its visible steps, in
order. What holds at the start and is kept by every step holds along every
run, of what someone watching has noted and the state it has led to
(`Reaches.observe`).

One system simulates another when it can follow every step of it with steps
of its own that look the same from outside. Every trace of the one is then a
trace of the other (`Simulation.trace`), so what is proved of all traces of
a simple system holds of a complicated one.

Two ways of putting systems together are used. A client is attached to an
object it calls: the calls are steps of both, seen from outside as what is
said of them, if at all, and the object may be replaced by one that simulates
it (`Simulation.attach`). Two systems are set beside each other and driven by
the same events, each taking part in its own: a run of the whole is then a run
of each (`run_left_of_beside`, `run_right_of_beside`), and runs of both are one
of the whole (`run_beside`).
-/

namespace Transition

/-- **A system**: where it may start, and its steps. A step without a label
is silent. -/
structure Machine (σ α : Type) where
  init : σ → Prop
  step : σ → Option α → σ → Prop

variable {σ τ κ α β γ : Type}

namespace Machine

/-- **A run**, with the labels of its visible steps. -/
inductive Run (S : Machine σ α) (s : σ) : List α → σ → Prop
  | refl : Run S s [] s
  | tail {s' s'' : σ} {t : List α} {l : Option α} :
    Run S s t s' → S.step s' l s'' → Run S s (t ++ l.toList) s''

/-- A run from the start leads to a state. -/
def Reaches (S : Machine σ α) (t : List α) (s : σ) : Prop := ∃ s₀, S.init s₀ ∧ S.Run s₀ t s

/-- **A trace** of a system. -/
def Trace (S : Machine σ α) (t : List α) : Prop := ∃ s, S.Reaches t s

variable {S : Machine σ α}

theorem Run.single {s s' : σ} {l : Option α} (h : S.step s l s') : S.Run s l.toList s' :=
  Run.refl.tail h

theorem Run.silent {s s' s'' : σ} {t : List α} (h : S.Run s t s') (hstep : S.step s' none s'') :
    S.Run s t s'' := by
  have hrun := h.tail hstep
  rwa [Option.toList_none, List.append_nil] at hrun

/-- A run goes on with another. -/
theorem Run.trans {s s' s'' : σ} {t u : List α} (h : S.Run s t s') (h' : S.Run s' u s'') :
    S.Run s (t ++ u) s'' := by
  induction h' with
  | refl =>
    rw [List.append_nil]
    exact h
  | tail _ hstep ih =>
    rw [← List.append_assoc]
    exact ih.tail hstep

theorem Reaches.run {s s' : σ} {t u : List α} (h : S.Reaches t s) (h' : S.Run s u s') :
    S.Reaches (t ++ u) s' := by
  obtain ⟨s₀, hs₀, hrun⟩ := h
  exact ⟨s₀, hs₀, hrun.trans h'⟩

/-- A run that ends with a label has a step with that label, followed by
silent ones. -/
theorem Run.exists_last {s s' : σ} {t u : List α} {a : α} (h : S.Run s u s')
    (hu : u = t ++ [a]) :
    ∃ s₁ s₂, S.Run s t s₁ ∧ S.step s₁ (some a) s₂ ∧ S.Run s₂ [] s' := by
  induction h with
  | refl => exact absurd hu.symm (List.append_ne_nil_of_right_ne_nil t (List.cons_ne_nil a []))
  | @tail s₁ s₂ u l hrun hstep ih =>
    cases l with
    | none =>
      rw [Option.toList_none, List.append_nil] at hu
      obtain ⟨s₃, s₄, hpre, hlast, hpost⟩ := ih hu
      exact ⟨s₃, s₄, hpre, hlast, hpost.tail hstep⟩
    | some b =>
      obtain ⟨rfl, hab⟩ := List.append_inj' hu rfl
      obtain rfl := List.singleton_inj.mp hab
      exact ⟨s₁, s₂, hrun, hstep, Run.refl⟩

/-- What has been seen of a run was seen of its beginning and then of the rest. -/
theorem Run.exists_of_append {s s' : σ} {t u : List α} (h : S.Run s (t ++ u) s') :
    ∃ s₁, S.Run s t s₁ ∧ S.Run s₁ u s' := by
  induction u using List.reverseRecOn generalizing s' with
  | nil =>
    rw [List.append_nil] at h
    exact ⟨s', h, Run.refl⟩
  | append_singleton u a ih =>
    obtain ⟨s₁, s₂, hpre, hlast, hpost⟩ := h.exists_last (List.append_assoc t u [a]).symm
    obtain ⟨s₃, ht, hu⟩ := ih hpre
    have hrest := (hu.tail hlast).trans hpost
    rw [List.append_nil] at hrest
    exact ⟨s₃, ht, hrest⟩

theorem Trace.exists_of_append {t u : List α} (h : S.Trace (t ++ u)) :
    ∃ s s', S.Reaches t s ∧ S.Run s u s' := by
  obtain ⟨s', s₀, hs₀, hrun⟩ := h
  obtain ⟨s, ht, hu⟩ := hrun.exists_of_append
  exact ⟨s, s', ⟨s₀, hs₀, ht⟩, hu⟩

theorem Trace.of_prefix {t u : List α} (h : S.Trace t) (hu : u <+: t) : S.Trace u := by
  obtain ⟨v, rfl⟩ := hu
  obtain ⟨s, -, hs, -⟩ := h.exists_of_append
  exact ⟨s, hs⟩

/-- **Induction over runs**, with someone watching who notes down every
visible step: what holds at the start and is kept by every step holds of what
was noted and the state it has led to. -/
theorem Reaches.observe {ω : Type} {note : ω → α → ω} {w₀ : ω} {I : ω → σ → Prop} {t : List α}
    {s : σ} (h : S.Reaches t s) (hinit : ∀ s, S.init s → I w₀ s)
    (hsilent : ∀ w s s', I w s → S.step s none s' → I w s')
    (hvisible : ∀ w s a s', I w s → S.step s (some a) s' → I (note w a) s') :
    I (t.foldl note w₀) s := by
  obtain ⟨s₀, hs₀, hrun⟩ := h
  induction hrun with
  | refl => exact hinit s₀ hs₀
  | @tail s s' t l _ hlast ih =>
    rw [List.foldl_append]
    cases l with
    | none => exact hsilent _ _ _ ih hlast
    | some a => exact hvisible _ _ _ _ ih hlast

/-- The same, when everything is noted down. -/
theorem Reaches.induction {I : List α → σ → Prop} {t : List α} {s : σ} (h : S.Reaches t s)
    (hinit : ∀ s, S.init s → I [] s) (hsilent : ∀ t s s', I t s → S.step s none s' → I t s')
    (hvisible : ∀ t s a s', I t s → S.step s (some a) s' → I (t ++ [a]) s') : I t s := by
  obtain ⟨s₀, hs₀, hrun⟩ := h
  induction hrun with
  | refl => exact hinit s₀ hs₀
  | @tail s s' t l _ hlast ih =>
    cases l with
    | none =>
      rw [Option.toList_none, List.append_nil]
      exact hsilent _ _ _ ih hlast
    | some a => exact hvisible _ _ _ _ ih hlast

end Machine

open Machine

/-! ## Simulations -/

/-- **A simulation** of a system by another: a relation between their states
along which every step is followed, by a run that looks the same. -/
structure Simulation (C : Machine σ α) (A : Machine τ α) where
  rel : σ → τ → Prop
  init : ∀ {s}, C.init s → ∃ a, A.init a ∧ rel s a
  step : ∀ {s l s' a}, rel s a → C.step s l s' → ∃ a', A.Run a l.toList a' ∧ rel s' a'

namespace Simulation

variable {C : Machine σ α} {A : Machine τ α}

/-- Every run is followed. -/
theorem run (f : Simulation C A) {s s' : σ} {t : List α} {a : τ} (h : C.Run s t s')
    (hrel : f.rel s a) : ∃ a', A.Run a t a' ∧ f.rel s' a' := by
  induction h with
  | refl => exact ⟨a, Run.refl, hrel⟩
  | tail _ hstep ih =>
    obtain ⟨a₁, hrun, hrel₁⟩ := ih
    obtain ⟨a₂, hmore, hrel₂⟩ := f.step hrel₁ hstep
    exact ⟨a₂, hrun.trans hmore, hrel₂⟩

/-- A state that is reached is related to one reached with the same trace. -/
theorem reaches (f : Simulation C A) {t : List α} {s : σ} (h : C.Reaches t s) :
    ∃ a, A.Reaches t a ∧ f.rel s a := by
  obtain ⟨s₀, hs₀, hrun⟩ := h
  obtain ⟨a₀, ha₀, hrel₀⟩ := f.init hs₀
  obtain ⟨a, harun, hrel⟩ := f.run hrun hrel₀
  exact ⟨a, ⟨a₀, ha₀, harun⟩, hrel⟩

/-- **Every trace of a system is one of any that simulates it.** -/
theorem trace (f : Simulation C A) {t : List α} (h : C.Trace t) : A.Trace t := by
  obtain ⟨s, hs⟩ := h
  obtain ⟨a, ha, -⟩ := f.reaches hs
  exact ⟨a, ha⟩

end Simulation

/-- **A run read as one of another system**, whose states are read off (`f`)
and whose steps are some for each label (`see`). -/
theorem Machine.Run.read {S : Machine σ α} {S' : Machine τ β} {f : σ → τ} {see : α → List β}
    (hstep : ∀ {s l s'}, S.step s l s' → S'.Run (f s) (l.toList.flatMap see) (f s'))
    {s s' : σ} {t : List α} (h : S.Run s t s') : S'.Run (f s) (t.flatMap see) (f s') := by
  induction h with
  | refl => exact Run.refl
  | tail _ hlast ih =>
    rw [List.flatMap_append]
    exact ih.trans (hstep hlast)

/-! ## A client and the object it calls -/

/-- The steps of a client attached to an object. A label of the client is
seen from outside (`inl`), or a step it takes together with the object
(`inr`), of which `see` says what it looks like from outside. -/
inductive AttachStep (C : Machine κ (γ ⊕ α)) (O : Machine σ α) (see : α → Option γ) :
    κ × σ → Option γ → κ × σ → Prop
  | silent {c c' : κ} {s : σ} : C.step c none c' → AttachStep C O see (c, s) none (c', s)
  | visible {c c' : κ} {s : σ} {g : γ} :
    C.step c (some (.inl g)) c' → AttachStep C O see (c, s) (some g) (c', s)
  | object {c : κ} {s s' : σ} : O.step s none s' → AttachStep C O see (c, s) none (c, s')
  | joint {c c' : κ} {s s' : σ} {x : α} {l : Option γ} : see x = l →
    C.step c (some (.inr x)) c' → O.step s (some x) s' → AttachStep C O see (c, s) l (c', s')

/-- **A client attached to an object.** -/
def Machine.attach (C : Machine κ (γ ⊕ α)) (O : Machine σ α) (see : α → Option γ) :
    Machine (κ × σ) γ where
  init p := C.init p.1 ∧ O.init p.2
  step := AttachStep C O see

section Attach

variable {C : Machine κ (γ ⊕ α)} {O : Machine σ α} {see : α → Option γ}

/-- What the object does of which the client takes no notice, it does attached
to it. -/
theorem run_attach_of_object {s s' : σ} {t : List α} (h : O.Run s t s') {c : κ}
    (hc : ∀ x ∈ t, C.step c (some (.inr x)) c) :
    (C.attach O see).Run (c, s) (t.filterMap see) (c, s') := by
  induction h with
  | refl => exact Run.refl
  | @tail s₁ s₂ t l _ hstep ih =>
    obtain ⟨ht, hl⟩ := List.forall_mem_append.mp hc
    rw [List.filterMap_append]
    cases l with
    | none => exact (ih ht).tail (l := none) (AttachStep.object hstep)
    | some x =>
      have hlast := (ih ht).tail (AttachStep.joint rfl (hl x (List.mem_singleton_self x)) hstep)
      rw [Option.toList_some, List.filterMap_cons]
      cases hx : see x with
      | none =>
        rw [hx] at hlast
        exact hlast
      | some g =>
        rw [hx] at hlast
        exact hlast

/-- What the object does unseen, it does attached to a client. -/
theorem run_attach_of_silent {s s' : σ} (h : O.Run s [] s') (c : κ) :
    (C.attach O see).Run (c, s) [] (c, s') :=
  run_attach_of_object h (fun _ hx => absurd hx List.not_mem_nil)

/-- A call is a step of the client within what the object does for it. -/
theorem run_attach_of_joint {c c' : κ} {s s' : σ} {x : α}
    (hc : C.step c (some (.inr x)) c') (h : O.Run s [x] s') :
    (C.attach O see).Run (c, s) (see x).toList (c', s') := by
  obtain ⟨s₁, s₂, hpre, hcall, hpost⟩ := h.exists_last (t := []) rfl
  have hrest : (C.attach O see).Run (c', s₂) [] (c', s') := run_attach_of_silent hpost c'
  have hrun := ((run_attach_of_silent hpre c).tail (AttachStep.joint rfl hc hcall)).trans hrest
  rwa [List.append_nil, List.nil_append] at hrun

/-- **An object may be replaced by one that simulates it**, whatever the
client does with it. -/
def Simulation.attach (C : Machine κ (γ ⊕ α)) {O : Machine σ α} {A : Machine τ α}
    (f : Simulation O A) (see : α → Option γ) :
    Simulation (C.attach O see) (C.attach A see) where
  rel p q := p.1 = q.1 ∧ f.rel p.2 q.2
  init := by
    rintro ⟨c, s⟩ ⟨hc, hs⟩
    obtain ⟨a, ha, hrel⟩ := f.init hs
    exact ⟨(c, a), ⟨hc, ha⟩, rfl, hrel⟩
  step := by
    rintro ⟨c, s⟩ l ⟨c', s'⟩ ⟨c₀, a⟩ ⟨rfl, hrel⟩ hstep
    cases hstep with
    | silent h => exact ⟨(c', a), Run.single (AttachStep.silent h), rfl, hrel⟩
    | visible h => exact ⟨(c', a), Run.single (AttachStep.visible h), rfl, hrel⟩
    | object h =>
      obtain ⟨a', hrun, hrel'⟩ := f.step hrel h
      exact ⟨(c, a'), run_attach_of_silent hrun c, rfl, hrel'⟩
    | joint hl hc h =>
      obtain ⟨a', hrun, hrel'⟩ := f.step hrel h
      exact ⟨(c', a'), hl ▸ run_attach_of_joint hc hrun, rfl, hrel'⟩

end Attach

/-! ## Two systems driven by the same events -/

/-- A system's part in an event: its own step when the event has one for it,
and nothing otherwise. -/
def TakesPart (S : Machine σ α) (part : Option α) (s s' : σ) : Prop :=
  match part with
  | some a => S.step s (some a) s'
  | none => s' = s

/-- The steps of two systems beside each other. -/
inductive BesideStep (A : Machine σ α) (B : Machine τ β) (left : γ → Option α)
    (right : γ → Option β) : σ × τ → Option γ → σ × τ → Prop
  | leftSilent {a a' : σ} {b : τ} : A.step a none a' →
    BesideStep A B left right (a, b) none (a', b)
  | rightSilent {a : σ} {b b' : τ} : B.step b none b' →
    BesideStep A B left right (a, b) none (a, b')
  | visible {a a' : σ} {b b' : τ} (g : γ) : TakesPart A (left g) a a' →
    TakesPart B (right g) b b' → BesideStep A B left right (a, b) (some g) (a', b')

/-- **Two systems beside each other**, driven by events of which each takes
the part meant for it. -/
def Machine.beside (A : Machine σ α) (B : Machine τ β) (left : γ → Option α)
    (right : γ → Option β) : Machine (σ × τ) γ where
  init p := A.init p.1 ∧ B.init p.2
  step := BesideStep A B left right

section Beside

variable {A : Machine σ α} {B : Machine τ β} {left : γ → Option α} {right : γ → Option β}

/-- Taking part in an event is a run with that part as its trace. -/
theorem run_of_takesPart {S : Machine σ α} {part : Option α} {s s' : σ}
    (h : TakesPart S part s s') : S.Run s part.toList s' := by
  cases part with
  | none =>
    obtain rfl : s' = s := h
    exact Run.refl
  | some a => exact Run.single h

/-- **A run of two systems beside each other is a run of the left one**, -/
theorem run_left_of_beside {p q : σ × τ} {t : List γ}
    (h : (A.beside B left right).Run p t q) : A.Run p.1 (t.filterMap left) q.1 := by
  induction h with
  | refl => exact Run.refl
  | tail _ hstep ih =>
    rw [List.filterMap_append]
    cases hstep with
    | leftSilent h => exact ih.tail h
    | rightSilent h =>
      rw [Option.toList_none, List.filterMap_nil, List.append_nil]
      exact ih
    | visible g ha hb =>
      refine ih.trans ?_
      rw [Option.toList_some, List.filterMap_cons]
      cases hl : left g with
      | none => exact run_of_takesPart (hl ▸ ha)
      | some a => exact run_of_takesPart (hl ▸ ha)

/-- and of the right one. -/
theorem run_right_of_beside {p q : σ × τ} {t : List γ}
    (h : (A.beside B left right).Run p t q) : B.Run p.2 (t.filterMap right) q.2 := by
  induction h with
  | refl => exact Run.refl
  | tail _ hstep ih =>
    rw [List.filterMap_append]
    cases hstep with
    | rightSilent h => exact ih.tail h
    | leftSilent h =>
      rw [Option.toList_none, List.filterMap_nil, List.append_nil]
      exact ih
    | visible g ha hb =>
      refine ih.trans ?_
      rw [Option.toList_some, List.filterMap_cons]
      cases hr : right g with
      | none => exact run_of_takesPart (hr ▸ hb)
      | some b => exact run_of_takesPart (hr ▸ hb)

theorem trace_left_of_beside {t : List γ} (h : (A.beside B left right).Trace t) :
    A.Trace (t.filterMap left) := by
  obtain ⟨p, q, hq, hrun⟩ := h
  exact ⟨p.1, q.1, hq.1, run_left_of_beside hrun⟩

theorem trace_right_of_beside {t : List γ} (h : (A.beside B left right).Trace t) :
    B.Trace (t.filterMap right) := by
  obtain ⟨p, q, hq, hrun⟩ := h
  exact ⟨p.2, q.2, hq.2, run_right_of_beside hrun⟩

/-- What the left system does, it does beside the right one, which takes no
part in it. -/
theorem run_beside_of_left {a a' : σ} {t : List α} (h : A.Run a t a') (ht : t = []) (b : τ) :
    (A.beside B left right).Run (a, b) [] (a', b) := by
  induction h with
  | refl => exact Run.refl
  | @tail s₁ s₂ t l _ hstep ih =>
    obtain ⟨rfl, hl⟩ := List.append_eq_nil_iff.mp ht
    cases l with
    | none => exact (ih rfl).tail (BesideStep.leftSilent hstep)
    | some x => cases hl

/-- What the right one does likewise. -/
theorem run_beside_of_right {b b' : τ} {t : List β} (h : B.Run b t b') (ht : t = []) (a : σ) :
    (A.beside B left right).Run (a, b) [] (a, b') := by
  induction h with
  | refl => exact Run.refl
  | @tail s₁ s₂ t l _ hstep ih =>
    obtain ⟨rfl, hl⟩ := List.append_eq_nil_iff.mp ht
    cases l with
    | none => exact (ih rfl).tail (BesideStep.rightSilent hstep)
    | some x => cases hl

/-- A run whose trace is a system's part in an event: it takes part in it
between silent steps. -/
theorem exists_takesPart {S : Machine σ α} {part : Option α} {s s' : σ}
    (h : S.Run s part.toList s') :
    ∃ s₁ s₂, S.Run s [] s₁ ∧ TakesPart S part s₁ s₂ ∧ S.Run s₂ [] s' := by
  cases part with
  | none => exact ⟨s', s', h, rfl, Run.refl⟩
  | some a => exact h.exists_last (t := []) rfl

/-- A run of each whose trace is its part in an event is one of both, along
that event. -/
theorem run_beside_of_parts {a a' : σ} {b b' : τ} (e : γ) (hA : A.Run a (left e).toList a')
    (hB : B.Run b (right e).toList b') : (A.beside B left right).Run (a, b) [e] (a', b') := by
  obtain ⟨a₂, a₃, hpreA, hpartA, hpostA⟩ := exists_takesPart hA
  obtain ⟨b₂, b₃, hpreB, hpartB, hpostB⟩ := exists_takesPart hB
  exact (((run_beside_of_left hpreA rfl b).trans (run_beside_of_right hpreB rfl a₂)).tail
    (BesideStep.visible e hpartA hpartB)).trans
    ((run_beside_of_left hpostA rfl b₃).trans (run_beside_of_right hpostB rfl a'))

/-- **A run of each is a run of both**, when they are of the parts of the same
events. -/
theorem run_beside {a a' : σ} {b b' : τ} (t : List γ) (hA : A.Run a (t.filterMap left) a')
    (hB : B.Run b (t.filterMap right) b') : (A.beside B left right).Run (a, b) t (a', b') := by
  have hsingle : ∀ {β' : Type} (f : γ → Option β') (e : γ), [e].filterMap f = (f e).toList := by
    intro β' f e
    rw [List.filterMap_cons]
    cases f e <;> rfl
  induction t using List.reverseRecOn generalizing a' b' with
  | nil => exact (run_beside_of_left hA rfl b).trans (run_beside_of_right hB rfl a')
  | append_singleton t e ih =>
    rw [List.filterMap_append, hsingle] at hA hB
    obtain ⟨a₁, hA₁, hA₂⟩ := hA.exists_of_append
    obtain ⟨b₁, hB₁, hB₂⟩ := hB.exists_of_append
    exact (ih hA₁ hB₁).trans (run_beside_of_parts e hA₂ hB₂)

/-- **Both systems may be replaced by ones that simulate them.** -/
def Simulation.beside {σ' τ' : Type} {A' : Machine σ' α} {B' : Machine τ' β}
    (f : Simulation A A') (g : Simulation B B') (left : γ → Option α) (right : γ → Option β) :
    Simulation (A.beside B left right) (A'.beside B' left right) where
  rel p q := f.rel p.1 q.1 ∧ g.rel p.2 q.2
  init := by
    rintro ⟨a, b⟩ ⟨ha, hb⟩
    obtain ⟨a', ha', hf⟩ := f.init ha
    obtain ⟨b', hb', hg⟩ := g.init hb
    exact ⟨(a', b'), ⟨ha', hb'⟩, hf, hg⟩
  step := by
    rintro ⟨a, b⟩ l ⟨a₁, b₁⟩ ⟨a', b'⟩ ⟨hf, hg⟩ hstep
    cases hstep with
    | leftSilent h =>
      obtain ⟨a₁', hrun, hf'⟩ := f.step hf h
      exact ⟨(a₁', b'), run_beside_of_left hrun rfl b', hf', hg⟩
    | rightSilent h =>
      obtain ⟨b₁', hrun, hg'⟩ := g.step hg h
      exact ⟨(a', b₁'), run_beside_of_right hrun rfl a', hf, hg'⟩
    | visible e ha hb =>
      obtain ⟨a₁', hrunA, hf'⟩ := f.run (run_of_takesPart ha) hf
      obtain ⟨b₁', hrunB, hg'⟩ := g.run (run_of_takesPart hb) hg
      exact ⟨(a₁', b₁'), run_beside_of_parts e hrunA hrunB, hf', hg'⟩

end Beside

end Transition
