import Mathlib.Data.List.Basic

set_option autoImplicit false

/-!
# Programs that stop early

`EStateM ε σ` is a program over a state that may throw, and that keeps
the state it had reached when it does: nothing is rolled back. Two things
are said about such programs here.

An outcome of a sequence is an outcome of its parts, one inversion lemma
for a normal end and one for an exception, so that what a program did is
read off its outcome without unfolding it.

A loop over the first `n` members of a list (`forGroups`), which throws
when the list ends before the count does, ends normally exactly when it
does so over those members (`forGroups_ok_iff`). When it throws, the
members before the one that threw were all processed, and the state is
the one they left, up to what the failing member did
(`forGroups_error`). What a body may do before it throws is a relation on
states that the rules of `FailsBy` build up along its steps.
-/

namespace EarlyExit

variable {ε σ α β γ : Type}

/-- A computation without a state, run where there is one. -/
def lift : Except ε α → EStateM ε σ α
  | .ok a => fun s => .ok a s
  | .error e => fun s => .error e s

/-- A program over a part of the state, run on the whole of it. What the
program leaves of its part is put back whether it ends or throws. -/
def zoom {τ : Type} (part : σ → τ) (put : τ → σ → σ) (x : EStateM ε τ α) :
    EStateM ε σ α := fun s =>
  match x.run (part s) with
  | .ok a t => .ok a (put t s)
  | .error e t => .error e (put t s)

/-! ## Outcomes -/

/-- A sequence ends normally exactly when its parts do. -/
theorem bind_ok_iff {x : EStateM ε σ α} {f : α → EStateM ε σ β} {s s' : σ}
    {b : β} :
    (x >>= f).run s = .ok b s'
      ↔ ∃ a s₁, x.run s = .ok a s₁ ∧ (f a).run s₁ = .ok b s' := by
  rw [EStateM.run_bind]
  cases h : x.run s with
  | ok a s₁ =>
    constructor
    · intro hf
      exact ⟨a, s₁, rfl, hf⟩
    · rintro ⟨a', s₂, heq, hf⟩
      obtain ⟨rfl, rfl⟩ := EStateM.Result.ok.inj heq
      exact hf
  | error e s₁ =>
    constructor
    · intro hf
      cases hf
    · rintro ⟨a', s₂, heq, -⟩
      cases heq

/-- A sequence throws exactly when its first part does, or its second
does after the first has ended. -/
theorem bind_error_iff {x : EStateM ε σ α} {f : α → EStateM ε σ β} {s s' : σ}
    {e : ε} :
    (x >>= f).run s = .error e s'
      ↔ x.run s = .error e s'
        ∨ ∃ a s₁, x.run s = .ok a s₁ ∧ (f a).run s₁ = .error e s' := by
  rw [EStateM.run_bind]
  cases h : x.run s with
  | ok a s₁ =>
    constructor
    · intro hf
      exact Or.inr ⟨a, s₁, rfl, hf⟩
    · rintro (heq | ⟨a', s₂, heq, hf⟩)
      · cases heq
      · obtain ⟨rfl, rfl⟩ := EStateM.Result.ok.inj heq
        exact hf
  | error e' s₁ =>
    constructor
    · intro hf
      obtain ⟨rfl, rfl⟩ := EStateM.Result.error.inj hf
      exact Or.inl rfl
    · rintro (heq | ⟨a', s₂, heq, -⟩)
      · obtain ⟨rfl, rfl⟩ := EStateM.Result.error.inj heq
        rfl
      · cases heq

theorem lift_ok_iff {x : Except ε α} {s s' : σ} {a : α} :
    (lift x : EStateM ε σ α).run s = .ok a s' ↔ x = .ok a ∧ s' = s := by
  cases x with
  | ok a' =>
    show EStateM.Result.ok a' s = EStateM.Result.ok a s' ↔ _
    rw [EStateM.Result.ok.injEq, Except.ok.injEq]
    exact and_congr_right fun _ => eq_comm
  | error e =>
    constructor
    · intro h
      cases h
    · rintro ⟨h, -⟩
      cases h

/-- A lifted computation throws its own exception and touches nothing. -/
theorem lift_error_iff {x : Except ε α} {s s' : σ} {e : ε} :
    (lift x : EStateM ε σ α).run s = .error e s' ↔ x = .error e ∧ s' = s := by
  cases x with
  | ok a =>
    constructor
    · intro h
      cases h
    · rintro ⟨h, -⟩
      cases h
  | error e' =>
    show EStateM.Result.error e' s = EStateM.Result.error e s' ↔ _
    rw [EStateM.Result.error.injEq, Except.error.injEq]
    exact and_congr_right fun _ => eq_comm

/-- What comes after a computation that is lifted. -/
theorem run_lift_bind_of_ok {x : Except ε α} {a : α} (h : x = .ok a)
    (f : α → EStateM ε σ β) (s : σ) : (lift x >>= f).run s = (f a).run s := by
  subst h
  rfl

/-- Nothing does when it throws. -/
theorem run_lift_bind_of_error {x : Except ε α} {e : ε} (h : x = .error e)
    (f : α → EStateM ε σ β) (s : σ) : (lift x >>= f).run s = .error e s := by
  subst h
  rfl

theorem modify_ok_iff {f : σ → σ} {s s' : σ} {u : Unit} :
    (modify f : EStateM ε σ Unit).run s = .ok u s' ↔ s' = f s := by
  rw [EStateM.run_modify, EStateM.Result.ok.injEq]
  constructor
  · intro h
    exact h.2.symm
  · intro h
    exact ⟨rfl, h.symm⟩

theorem pure_ok_iff {a a' : α} {s s' : σ} :
    (pure a : EStateM ε σ α).run s = .ok a' s' ↔ a' = a ∧ s' = s := by
  rw [EStateM.run_pure, EStateM.Result.ok.injEq]
  exact and_congr eq_comm eq_comm

theorem zoom_ok_iff {τ : Type} {part : σ → τ} {put : τ → σ → σ}
    {x : EStateM ε τ α} {s s' : σ} {a : α} :
    (zoom part put x).run s = .ok a s'
      ↔ ∃ t, x.run (part s) = .ok a t ∧ s' = put t s := by
  show (match x.run (part s) with
      | .ok a t => EStateM.Result.ok a (put t s)
      | .error e t => EStateM.Result.error e (put t s)) = _ ↔ _
  cases x.run (part s) with
  | ok a' t =>
    constructor
    · intro h
      obtain ⟨rfl, rfl⟩ := EStateM.Result.ok.inj h
      exact ⟨t, rfl, rfl⟩
    · rintro ⟨t', heq, rfl⟩
      obtain ⟨rfl, rfl⟩ := EStateM.Result.ok.inj heq
      rfl
  | error e t =>
    constructor
    · intro h
      cases h
    · rintro ⟨t', heq, -⟩
      cases heq

theorem zoom_error_iff {τ : Type} {part : σ → τ} {put : τ → σ → σ}
    {x : EStateM ε τ α} {s s' : σ} {e : ε} :
    (zoom part put x).run s = .error e s'
      ↔ ∃ t, x.run (part s) = .error e t ∧ s' = put t s := by
  show (match x.run (part s) with
      | .ok a t => EStateM.Result.ok a (put t s)
      | .error e t => EStateM.Result.error e (put t s)) = _ ↔ _
  cases x.run (part s) with
  | ok a t =>
    constructor
    · intro h
      cases h
    · rintro ⟨t', heq, -⟩
      cases heq
  | error e' t =>
    constructor
    · intro h
      obtain ⟨rfl, rfl⟩ := EStateM.Result.error.inj h
      exact ⟨t, rfl, rfl⟩
    · rintro ⟨t', heq, rfl⟩
      obtain ⟨rfl, rfl⟩ := EStateM.Result.error.inj heq
      rfl

theorem throw_error_iff {e e' : ε} {s s' : σ} :
    (throw e : EStateM ε σ α).run s = .error e' s' ↔ e' = e ∧ s' = s := by
  show EStateM.Result.error e s = EStateM.Result.error e' s' ↔ _
  rw [EStateM.Result.error.injEq]
  exact and_congr eq_comm eq_comm

/-! ## What is left when a program throws -/

/-- A program that leaves the state as it was, whether it ends or throws. -/
def ReadOnly (x : EStateM ε σ α) : Prop :=
  (∀ s a s', x.run s = .ok a s' → s' = s) ∧ ∀ s e s', x.run s = .error e s' → s' = s

/-- When a program throws, what it leaves is related to what it found. -/
def FailsBy (P : σ → σ → Prop) (x : EStateM ε σ α) : Prop :=
  ∀ s e s', x.run s = .error e s' → P s s'

/-- **A program that changes nothing when it throws.** -/
abbrev Atomic (x : EStateM ε σ α) : Prop := FailsBy (fun s s' => s' = s) x

theorem ReadOnly.failsBy {x : EStateM ε σ α} {P : σ → σ → Prop} (h : ReadOnly x)
    (hrefl : ∀ s, P s s) : FailsBy P x := by
  intro s e s' hx
  rw [h.2 s e s' hx]
  exact hrefl s

/-- What comes after a part that only reads is all that can leave a trace. -/
theorem ReadOnly.failsBy_bind {x : EStateM ε σ α} {f : α → EStateM ε σ β} {P : σ → σ → Prop}
    (hx : ReadOnly x) (hrefl : ∀ s, P s s)
    (hf : ∀ s a, x.run s = .ok a s → FailsBy P (f a)) : FailsBy P (x >>= f) := by
  intro s e s' h
  rcases bind_error_iff.mp h with hthrow | ⟨a, s₁, hok, hrest⟩
  · exact hx.failsBy hrefl s e s' hthrow
  · obtain rfl := hx.1 s a s₁ hok
    exact hf s₁ a hok s₁ e s' hrest

theorem readOnly_lift (x : Except ε α) : ReadOnly (lift x : EStateM ε σ α) :=
  ⟨fun _ _ _ h => (lift_ok_iff.mp h).2, fun _ _ _ h => (lift_error_iff.mp h).2⟩

theorem readOnly_pure (a : α) : ReadOnly (pure a : EStateM ε σ α) :=
  ⟨fun _ _ _ h => (pure_ok_iff.mp h).2, fun _ _ _ h => (nomatch h)⟩

theorem ReadOnly.bind {x : EStateM ε σ α} {f : α → EStateM ε σ β} (hx : ReadOnly x)
    (hf : ∀ a, ReadOnly (f a)) : ReadOnly (x >>= f) := by
  refine ⟨fun s b s' h => ?_, hx.failsBy_bind (fun _ => rfl) (fun _ a _ => (hf a).2)⟩
  obtain ⟨a, s₁, hok, hrest⟩ := bind_ok_iff.mp h
  rw [(hf a).1 s₁ b s' hrest, hx.1 s a s₁ hok]

/-- A modification does not throw. -/
theorem failsBy_modify (f : σ → σ) (P : σ → σ → Prop) :
    FailsBy P (modify f : EStateM ε σ Unit) := by
  intro s e s' h
  cases h

theorem FailsBy.zoom {τ : Type} {part : σ → τ} {put : τ → σ → σ} {x : EStateM ε τ α}
    {P : τ → τ → Prop} (h : FailsBy P x) :
    FailsBy (fun s s' => ∃ t, P (part s) t ∧ s' = put t s) (zoom part put x) := by
  intro s e s' hx
  obtain ⟨t, ht, rfl⟩ := zoom_error_iff.mp hx
  exact ⟨t, h _ e t ht, rfl⟩

theorem FailsBy.mono {x : EStateM ε σ α} {P Q : σ → σ → Prop} (h : FailsBy P x)
    (hPQ : ∀ s s', P s s' → Q s s') : FailsBy Q x :=
  fun s e s' hx => hPQ s s' (h s e s' hx)

/-! ## Loops over the members of a message -/

/-- **The counted loop**: `for (i = first; i < first + n; i++)` over the
members of a list, carrying local variables from one iteration to the
next, and throwing `past` when the list has ended before the count. -/
def forGroups (past : ε) (body : ℕ → γ → β → EStateM ε σ β) :
    ℕ → ℕ → List γ → β → EStateM ε σ β
  | 0, _, _, acc => pure acc
  | _ + 1, _, [], _ => throw past
  | n + 1, i, g :: gs, acc => do
    let acc' ← body i g acc
    forGroups past body n (i + 1) gs acc'

/-- The loop over every member of a list. -/
def forEach (body : ℕ → γ → β → EStateM ε σ β) :
    ℕ → List γ → β → EStateM ε σ β
  | _, [], acc => pure acc
  | i, g :: gs, acc => do
    let acc' ← body i g acc
    forEach body (i + 1) gs acc'

/-- **A counted loop that ends normally is the loop over the members it
counted**, of which there were enough. -/
theorem forGroups_ok_iff {past : ε} {body : ℕ → γ → β → EStateM ε σ β}
    {n i : ℕ} {gs : List γ} {acc acc' : β} {s s' : σ} :
    (forGroups past body n i gs acc).run s = .ok acc' s'
      ↔ n ≤ gs.length
        ∧ (forEach body i (gs.take n) acc).run s = .ok acc' s' := by
  induction n generalizing i gs acc s with
  | zero =>
    rw [List.take_zero]
    exact (and_iff_right (Nat.zero_le _)).symm
  | succ n ih =>
    cases gs with
    | nil =>
      constructor
      · intro h
        cases h
      · rintro ⟨h, -⟩
        exact absurd h (Nat.not_succ_le_zero n)
    | cons g gs =>
      rw [forGroups, List.take_succ_cons, forEach, bind_ok_iff, bind_ok_iff,
        List.length_cons, Nat.add_le_add_iff_right]
      constructor
      · rintro ⟨a, s₁, hbody, hrest⟩
        obtain ⟨hn, hrest'⟩ := ih.mp hrest
        exact ⟨hn, a, s₁, hbody, hrest'⟩
      · rintro ⟨hn, a, s₁, hbody, hrest⟩
        exact ⟨a, s₁, hbody, ih.mpr ⟨hn, hrest⟩⟩

/-- A loop whose body ends normally on the members satisfying `R`, doing `f`
to the state, does so in order to every member. -/
theorem forEach_ok_iff {body : ℕ → γ → Unit → EStateM ε σ Unit} {R : γ → Prop}
    {f : γ → σ → σ}
    (hbody : ∀ i g u s s', (body i g ()).run s = .ok u s' ↔ R g ∧ s' = f g s)
    {i : ℕ} {gs : List γ} {s s' : σ} {u : Unit} :
    (forEach body i gs ()).run s = .ok u s'
      ↔ (∀ g ∈ gs, R g) ∧ s' = gs.foldl (fun s g => f g s) s := by
  induction gs generalizing i s with
  | nil =>
    rw [forEach, pure_ok_iff]
    exact and_congr_left' (iff_of_true rfl (fun g hg => absurd hg List.not_mem_nil))
  | cons g gs ih =>
    rw [forEach, bind_ok_iff, List.forall_mem_cons, List.foldl_cons]
    constructor
    · rintro ⟨u', s₁, hg, hrest⟩
      obtain ⟨hR, rfl⟩ := (hbody i g u' s s₁).mp hg
      obtain ⟨hall, rfl⟩ := ih.mp hrest
      exact ⟨⟨hR, hall⟩, rfl⟩
    · rintro ⟨⟨hR, hall⟩, rfl⟩
      exact ⟨(), f g s, (hbody i g () s _).mpr ⟨hR, rfl⟩, ih.mpr ⟨hall, rfl⟩⟩

/-- **Where a counted loop throws.** Some `k` members were processed
normally; the loop over one more throws the same exception in the same
state, because the list had ended or because the body threw on member `k`
in the state those members had left. -/
theorem forGroups_error {past : ε} {body : ℕ → γ → β → EStateM ε σ β}
    {n i : ℕ} {gs : List γ} {acc : β} {s s' : σ} {e : ε}
    (h : (forGroups past body n i gs acc).run s = .error e s') :
    ∃ k acc' s₁, k < n
      ∧ (forGroups past body k i gs acc).run s = .ok acc' s₁
      ∧ (forGroups past body (k + 1) i gs acc).run s = .error e s'
      ∧ (s' = s₁ ∨ ∃ g, gs[k]? = some g ∧ (body (i + k) g acc').run s₁ = .error e s') := by
  induction n generalizing i gs acc s with
  | zero => cases h
  | succ n ih =>
    cases gs with
    | nil =>
      obtain ⟨rfl, rfl⟩ := EStateM.Result.error.inj h
      exact ⟨0, acc, s, Nat.succ_pos n, rfl, rfl, Or.inl rfl⟩
    | cons g gs =>
      have hsucc : ∀ m, forGroups past body (m + 1) i (g :: gs) acc
          = body i g acc >>= forGroups past body m (i + 1) gs := fun _ => rfl
      rw [hsucc, bind_error_iff] at h
      rcases h with hbody | ⟨a, s₁, hbody, hrest⟩
      · refine ⟨0, acc, s, Nat.succ_pos n, rfl, ?_, Or.inr ⟨g, rfl, hbody⟩⟩
        rw [hsucc, bind_error_iff]
        exact Or.inl hbody
      · obtain ⟨k, acc', s₂, hk, hok, hmore, hfail⟩ := ih hrest
        refine ⟨k + 1, acc', s₂, Nat.succ_lt_succ hk, ?_, ?_, ?_⟩
        · rw [hsucc, bind_ok_iff]
          exact ⟨a, s₁, hbody, hok⟩
        · rw [hsucc, bind_error_iff]
          exact Or.inr ⟨a, s₁, hbody, hmore⟩
        · rcases hfail with hs | ⟨g', hg', hthrow⟩
          · exact Or.inl hs
          · refine Or.inr ⟨g', by rw [List.getElem?_cons_succ, hg'], ?_⟩
            rw [← Nat.add_assoc, Nat.add_right_comm]
            exact hthrow

end EarlyExit
