import Trader.EarlyExit

set_option autoImplicit false

/-!
# What a program keeps, and what it depends on

Two kinds of rules for the programs of `EarlyExit`. A property of the state
that every part of a program keeps, however that part ends, the program keeps
(`Keeps`). And a program whose parts are replaced by others that do the same
wherever they are reached does the same as a whole (`bind_congr_of_ok`,
`forGroups_congr`, `forGroups_map`): where a part is reached, something is
known of what the parts before it returned.
-/

namespace EarlyExit

variable {ε σ α β γ γ' : Type}

/-! ## Properties of the state -/

/-- **A program keeps a property of the state**, whether it ends or throws. -/
def Keeps (I : σ → Prop) (x : EStateM ε σ α) : Prop :=
  (∀ s a s', I s → x.run s = .ok a s' → I s') ∧ ∀ s e s', I s → x.run s = .error e s' → I s'

section Keeps

variable {I : σ → Prop}

theorem ReadOnly.keeps {x : EStateM ε σ α} (h : ReadOnly x) : Keeps I x := by
  constructor
  · intro s a s' hs hx
    rwa [h.1 s a s' hx]
  · intro s e s' hs hx
    rwa [h.2 s e s' hx]

/-- The second part has to keep the property only for what the first returns. -/
theorem Keeps.bind {x : EStateM ε σ α} {f : α → EStateM ε σ β} (hx : Keeps I x)
    (hf : ∀ s a s', x.run s = .ok a s' → Keeps I (f a)) : Keeps I (x >>= f) := by
  constructor
  · intro s b s' hs h
    obtain ⟨a, s₁, hok, hrest⟩ := bind_ok_iff.mp h
    exact (hf s a s₁ hok).1 s₁ b s' (hx.1 s a s₁ hs hok) hrest
  · intro s e s' hs h
    rcases bind_error_iff.mp h with hthrow | ⟨a, s₁, hok, hrest⟩
    · exact hx.2 s e s' hs hthrow
    · exact (hf s a s₁ hok).2 s₁ e s' (hx.1 s a s₁ hs hok) hrest

theorem keeps_modify {f : σ → σ} (h : ∀ s, I s → I (f s)) :
    Keeps I (modify f : EStateM ε σ Unit) := by
  constructor
  · intro s u s' hs hx
    rw [modify_ok_iff.mp hx]
    exact h s hs
  · intro s e s' hs hx
    cases hx

/-- A program of a part keeps what it keeps of the part. -/
theorem Keeps.zoom {τ : Type} {part : σ → τ} {put : τ → σ → σ} {J : τ → Prop}
    {x : EStateM ε τ α} (h : Keeps J x) (hpart : ∀ s, I s → J (part s))
    (hput : ∀ s t, I s → J t → I (put t s)) : Keeps I (zoom part put x) := by
  constructor
  · intro s a s' hs hx
    obtain ⟨t, ht, rfl⟩ := zoom_ok_iff.mp hx
    exact hput s t hs (h.1 _ a t (hpart s hs) ht)
  · intro s e s' hs hx
    obtain ⟨t, ht, rfl⟩ := zoom_error_iff.mp hx
    exact hput s t hs (h.2 _ e t (hpart s hs) ht)

theorem keeps_forGroups {past : ε} {body : ℕ → γ → β → EStateM ε σ β} {n i : ℕ} {gs : List γ}
    {acc : β} (h : ∀ g ∈ gs.take n, ∀ i acc, Keeps I (body i g acc)) :
    Keeps I (forGroups past body n i gs acc) := by
  induction n generalizing i gs acc with
  | zero => exact (readOnly_pure acc).keeps
  | succ n ih =>
    cases gs with
    | nil =>
      refine ⟨fun s a s' _ hx => (nomatch hx), fun s e s' hs hx => ?_⟩
      rw [(throw_error_iff.mp hx).2]
      exact hs
    | cons g gs =>
      rw [List.take_succ_cons] at h
      obtain ⟨hg, hgs⟩ := List.forall_mem_cons.mp h
      exact (hg i acc).bind (fun _ acc' _ _ => ih hgs)

end Keeps

/-! ## Programs that do the same -/

/-- What comes after a part matters only for what the part returns. -/
theorem bind_congr_of_ok {x : EStateM ε σ α} {f f' : α → EStateM ε σ β}
    (h : ∀ s a s', x.run s = .ok a s' → f a = f' a) : x >>= f = x >>= f' := by
  funext s
  show (x >>= f).run s = (x >>= f').run s
  rw [EStateM.run_bind, EStateM.run_bind]
  cases hx : x.run s with
  | ok a s' =>
    show (f a).run s' = (f' a).run s'
    rw [h s a s' hx]
  | error e s' => rfl

/-- A counted loop visits the members it counts. -/
theorem forGroups_congr {past : ε} {body body' : ℕ → γ → β → EStateM ε σ β} {n i : ℕ}
    {gs : List γ} {acc : β} (h : ∀ g ∈ gs.take n, ∀ i acc, body i g acc = body' i g acc) :
    forGroups past body n i gs acc = forGroups past body' n i gs acc := by
  induction n generalizing i gs acc with
  | zero => rfl
  | succ n ih =>
    cases gs with
    | nil => rfl
    | cons g gs =>
      rw [List.take_succ_cons] at h
      obtain ⟨hg, hgs⟩ := List.forall_mem_cons.mp h
      rw [forGroups, forGroups, hg]
      exact bind_congr_of_ok (fun _ acc' _ _ => ih hgs)

/-- A loop over members that were made of others. -/
theorem forGroups_map {past : ε} {body : ℕ → γ → β → EStateM ε σ β} (f : γ' → γ) {n i : ℕ}
    {gs : List γ'} {acc : β} :
    forGroups past body n i (gs.map f) acc
      = forGroups past (fun i g acc => body i (f g) acc) n i gs acc := by
  induction n generalizing i gs acc with
  | zero => rfl
  | succ n ih =>
    cases gs with
    | nil => rfl
    | cons g gs => exact bind_congr_of_ok (fun _ acc' _ _ => ih)

end EarlyExit
