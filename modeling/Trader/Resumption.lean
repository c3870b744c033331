import Mathlib.Data.List.TakeDrop
import Trader.EarlyExit

set_option autoImplicit false

/-!
# Programs that others may interrupt

A program on a state that is shared takes its steps one at a time, and
between two of them others may take theirs. Such a program is what it
returns, or a step on the state and what comes after it, which may depend on
the state the step found (`Resumption`). On its way it may tell those outside
that something has changed, which others see while it is still running.

Run on its own (`run`) it is a function of the state again, and so is how
often it tells (`told`). A program written as steps *implements* one of
`EarlyExit` when it gives the same outcome on every state and tells as often
as is said of it; the rules for this follow the steps of the program
(`Implements.seq`, `Implements.forGroups`).
-/

/-- **A program that can be interrupted** between any two of its steps. -/
inductive Resumption (σ ρ : Type) where
  /-- It returns. -/
  | ret (r : ρ)
  /-- It takes a step on the state, and goes on as the state it found says. -/
  | act (f : σ → σ) (next : σ → Resumption σ ρ)
  /-- It tells those outside, and goes on. -/
  | tell (p : Resumption σ ρ)

namespace Resumption

open EarlyExit

variable {ε σ ρ ρ' α β γ : Type}

/-- What a program returns and leaves when no one interrupts it. -/
def run : Resumption σ ρ → σ → ρ × σ
  | ret r, s => (r, s)
  | act f next, s => (next s).run (f s)
  | tell p, s => p.run s

/-- How often it tells those outside meanwhile. -/
def told : Resumption σ ρ → σ → ℕ
  | ret _, _ => 0
  | act f next, s => (next s).told (f s)
  | tell p, s => p.told s + 1

/-- The same program, with what it returns put in another form. -/
def map (g : ρ → ρ') : Resumption σ ρ → Resumption σ ρ'
  | ret r => ret (g r)
  | act f next => act f (fun s => (next s).map g)
  | tell p => tell (p.map g)

theorem run_map (g : ρ → ρ') (p : Resumption σ ρ) (s : σ) :
    (p.map g).run s = (g (p.run s).1, (p.run s).2) := by
  induction p generalizing s with
  | ret r => rfl
  | act f next ih => exact ih s (f s)
  | tell p ih => exact ih s

theorem told_map (g : ρ → ρ') (p : Resumption σ ρ) (s : σ) : (p.map g).told s = p.told s := by
  induction p generalizing s with
  | ret r => rfl
  | act f next ih => exact ih s (f s)
  | tell p ih => exact congrArg (· + 1) (ih s)

/-! ## Programs that throw -/

/-- The outcome of a program that may throw: what it returns or throws, and
the state it leaves. -/
def outcome (x : EStateM ε σ α) (s : σ) : Except ε α × σ :=
  match x.run s with
  | .ok a s' => (.ok a, s')
  | .error e s' => (.error e, s')

theorem outcome_of_ok {x : EStateM ε σ α} {s s' : σ} {a : α} (h : x.run s = .ok a s') :
    outcome x s = (.ok a, s') := by
  unfold outcome
  rw [h]

theorem outcome_of_error {x : EStateM ε σ α} {s s' : σ} {e : ε} (h : x.run s = .error e s') :
    outcome x s = (.error e, s') := by
  unfold outcome
  rw [h]

/-- An outcome says how the program ended. -/
theorem run_of_outcome_ok {x : EStateM ε σ α} {s s' : σ} {a : α}
    (h : outcome x s = (.ok a, s')) : x.run s = .ok a s' := by
  unfold outcome at h
  cases hx : x.run s with
  | ok a' s'' =>
    rw [hx] at h
    obtain ⟨h₁, rfl⟩ := Prod.mk.inj h
    rw [Except.ok.inj h₁]
  | error e s'' =>
    rw [hx] at h
    cases h

theorem run_of_outcome_error {x : EStateM ε σ α} {s s' : σ} {e : ε}
    (h : outcome x s = (.error e, s')) : x.run s = .error e s' := by
  unfold outcome at h
  cases hx : x.run s with
  | ok a s'' =>
    rw [hx] at h
    cases h
  | error e' s'' =>
    rw [hx] at h
    obtain ⟨h₁, rfl⟩ := Prod.mk.inj h
    rw [Except.error.inj h₁]

/-- A program that no one interrupts, as one step. -/
def atom (x : EStateM ε σ α) : Resumption σ (Except ε α) :=
  act (fun s => (outcome x s).2) (fun s => ret (outcome x s).1)

/-- A program and, unless it throws, what comes after it. -/
def seq : Resumption σ (Except ε α) → (α → Resumption σ (Except ε β)) →
    Resumption σ (Except ε β)
  | ret (.ok a), q => q a
  | ret (.error e), _ => ret (.error e)
  | act f next, q => act f (fun s => (next s).seq q)
  | tell p, q => tell (p.seq q)

theorem run_seq (p : Resumption σ (Except ε α)) (q : α → Resumption σ (Except ε β)) (s : σ) :
    (p.seq q).run s
      = match p.run s with
        | (.ok a, s') => (q a).run s'
        | (.error e, s') => (.error e, s') := by
  induction p generalizing s with
  | ret r =>
    cases r with
    | ok a => rfl
    | error e => rfl
  | act f next ih => exact ih s (f s)
  | tell p ih => exact ih s

theorem told_seq (p : Resumption σ (Except ε α)) (q : α → Resumption σ (Except ε β)) (s : σ) :
    (p.seq q).told s
      = p.told s + match p.run s with
        | (.ok a, s') => (q a).told s'
        | (.error _, _) => 0 := by
  induction p generalizing s with
  | ret r =>
    cases r with
    | ok a => exact (Nat.zero_add _).symm
    | error e => rfl
  | act f next ih => exact ih s (f s)
  | tell p ih => exact (congrArg (· + 1) (ih s)).trans (Nat.add_right_comm _ _ _)

/-- What is said of how often a program tells, as a relation of that number to
the state it finds and the state it leaves, adds up along a sequence. -/
structure Additive (R : ℕ → σ → σ → Prop) : Prop where
  zero : ∀ s, R 0 s s
  add : ∀ m n s s' s'', R m s s' → R n s' s'' → R (m + n) s s''

/-- It tells nothing. -/
def Silent : ℕ → σ → σ → Prop := fun n _ _ => n = 0

theorem additive_silent : Additive (Silent : ℕ → σ → σ → Prop) where
  zero _ := rfl
  add m n s s' s'' hm hn := by
    obtain rfl : m = 0 := hm
    obtain rfl : n = 0 := hn
    rfl

/-- **A program written as steps implements one that is not** when it has the
same outcome on every state, and tells as often as `R` says. -/
def Implements (R : ℕ → σ → σ → Prop) (p : Resumption σ (Except ε α)) (x : EStateM ε σ α) :
    Prop :=
  ∀ s, p.run s = outcome x s ∧ R (p.told s) s (outcome x s).2

section Implements

variable {R : ℕ → σ → σ → Prop}

theorem implements_atom {x : EStateM ε σ α} (h : ∀ s, R 0 s (outcome x s).2) :
    Implements R (atom x) x := fun s => ⟨rfl, h s⟩

theorem silent_atom (x : EStateM ε σ α) : Implements Silent (atom x) x :=
  implements_atom (fun _ => rfl)

/-- A part that only reads. -/
theorem implements_readOnly (hR : Additive R) {x : EStateM ε σ α} (h : ReadOnly x) :
    Implements R (atom x) x := by
  refine implements_atom (fun s => ?_)
  unfold outcome
  cases hx : x.run s with
  | ok a s' =>
    rw [h.1 s a s' hx]
    exact hR.zero s
  | error e s' =>
    rw [h.2 s e s' hx]
    exact hR.zero s

/-- A part that tells those outside when it has ended normally. -/
theorem implements_tell {x : EStateM ε σ α} (hok : ∀ s a s', x.run s = .ok a s' → R 1 s s')
    (herror : FailsBy (R 0) x) :
    Implements R ((atom x).seq fun a => tell (ret (.ok a))) x := by
  intro s
  rw [run_seq, told_seq]
  show (match outcome x s with
      | (.ok a, s') => (Except.ok a, s')
      | (.error e, s') => (.error e, s')) = outcome x s
    ∧ R (0 + match outcome x s with
      | (.ok _, _) => 1
      | (.error _, _) => 0) s (outcome x s).2
  unfold outcome
  cases hx : x.run s with
  | ok a s' => exact ⟨rfl, hok s a s' hx⟩
  | error e s' => exact ⟨rfl, herror s e s' hx⟩

theorem implements_ret (hR : Additive R) (a : α) :
    Implements R (ret (.ok a) : Resumption σ (Except ε α)) (pure a) := fun s => ⟨rfl, hR.zero s⟩

theorem implements_throw (hR : Additive R) (e : ε) :
    Implements R (ret (.error e) : Resumption σ (Except ε α)) (throw e) :=
  fun s => ⟨rfl, hR.zero s⟩

/-- **Sequences are implemented part by part.** -/
theorem Implements.seq (hR : Additive R) {p : Resumption σ (Except ε α)} {x : EStateM ε σ α}
    {q : α → Resumption σ (Except ε β)} {f : α → EStateM ε σ β} (hp : Implements R p x)
    (hq : ∀ a, Implements R (q a) (f a)) : Implements R (p.seq q) (x >>= f) := by
  intro s
  obtain ⟨hrun, htold⟩ := hp s
  rw [run_seq, told_seq, hrun]
  unfold outcome at htold ⊢
  rw [EStateM.run_bind]
  cases hx : x.run s with
  | ok a s' =>
    rw [hx] at htold
    obtain ⟨hrun', htold'⟩ := hq a s'
    exact ⟨hrun', hR.add _ _ _ _ _ htold htold'⟩
  | error e s' =>
    rw [hx] at htold
    exact ⟨rfl, htold⟩

end Implements

/-- The program of a part of the state, run on the whole of it. -/
def zoom {τ : Type} (part : σ → τ) (put : τ → σ → σ) : Resumption τ ρ → Resumption σ ρ
  | ret r => ret r
  | act f next => act (fun s => put (f (part s)) s) (fun s => (next (part s)).zoom part put)
  | tell p => tell (p.zoom part put)

theorem told_zoom {τ : Type} {part : σ → τ} {put : τ → σ → σ}
    (hpart : ∀ t s, part (put t s) = t) (p : Resumption τ ρ) (s : σ) :
    (p.zoom part put).told s = p.told (part s) := by
  induction p generalizing s with
  | ret r => rfl
  | act f next ih =>
    have hnext := ih (part s) (put (f (part s)) s)
    rw [hpart] at hnext
    exact hnext
  | tell p ih => exact congrArg (· + 1) (ih s)

/-- **A program of a part implements there what it implements on its own**,
when putting a part back and taking it out again is one and the same. -/
theorem Implements.zoom {τ : Type} {part : σ → τ} {put : τ → σ → σ}
    {p : Resumption τ (Except ε α)} {x : EStateM ε τ α} (h : Implements Silent p x)
    (hput : ∀ s, put (part s) s = s) (hpart : ∀ t s, part (put t s) = t)
    (hputput : ∀ t t' s, put t' (put t s) = put t' s) :
    Implements Silent (p.zoom part put) (EarlyExit.zoom part put x) := by
  have hrun : ∀ (p : Resumption τ (Except ε α)) (s : σ),
      (p.zoom part put).run s = ((p.run (part s)).1, put (p.run (part s)).2 s) := by
    intro p
    induction p with
    | ret r => exact fun s => congrArg (fun s' => (r, s')) (hput s).symm
    | act f next ih =>
      intro s
      have hnext := ih (part s) (put (f (part s)) s)
      rw [hpart, hputput] at hnext
      exact hnext
    | tell p ih => exact ih
  intro s
  refine ⟨?_, (told_zoom hpart p s).trans (h (part s)).2⟩
  rw [hrun, (h (part s)).1]
  unfold outcome EarlyExit.zoom
  dsimp only [EStateM.run]
  cases x (part s) with
  | ok a t => rfl
  | error e t => rfl

/-- The counted loop of `EarlyExit`, over a body written as steps. -/
def forGroups (past : ε) (body : ℕ → γ → β → Resumption σ (Except ε β)) :
    ℕ → ℕ → List γ → β → Resumption σ (Except ε β)
  | 0, _, _, acc => ret (.ok acc)
  | _ + 1, _, [], _ => ret (.error past)
  | n + 1, i, g :: gs, acc => (body i g acc).seq (forGroups past body n (i + 1) gs)

/-- **Loops are implemented turn by turn.** -/
theorem Implements.forGroups {R : ℕ → σ → σ → Prop} (hR : Additive R) {past : ε}
    {body : ℕ → γ → β → Resumption σ (Except ε β)} {body' : ℕ → γ → β → EStateM ε σ β}
    (h : ∀ i g acc, Implements R (body i g acc) (body' i g acc)) (n i : ℕ) (gs : List γ)
    (acc : β) :
    Implements R (Resumption.forGroups past body n i gs acc)
      (EarlyExit.forGroups past body' n i gs acc) := by
  induction n generalizing i gs acc with
  | zero => exact implements_ret hR acc
  | succ n ih =>
    cases gs with
    | nil => exact implements_throw hR past
    | cons g gs => exact (h i g acc).seq hR (fun acc' => ih (i + 1) gs acc')

/-! ## Copying a list out of the state -/

/-- The loop of a copy, with `n` items to go: it reads the next item off the
state as it is then. -/
def copyLoop (item : σ → ℕ → Option α) : ℕ → List α → Resumption σ (List α)
  | 0, copied => ret copied
  | n + 1, copied => act id (fun s =>
      match item s copied.length with
      | some a => copyLoop item n (copied ++ [a])
      | none => ret copied)

/-- Copy items out of the state one by one, as many as it holds at first. -/
def copy (count : σ → ℕ) (item : σ → ℕ → Option α) : Resumption σ (List α) :=
  act id (fun s => copyLoop item (count s) [])

theorem run_copyLoop {item : σ → ℕ → Option α} {s : σ} {l : List α}
    (hitem : ∀ i, item s i = l[i]?) (n : ℕ) (copied : List α)
    (h : copied = l.take copied.length) :
    (copyLoop item n copied).run s = (l.take (copied.length + n), s) := by
  induction n generalizing copied with
  | zero =>
    rw [Nat.add_zero, ← h]
    rfl
  | succ n ih =>
    show (match item s copied.length with
      | some a => copyLoop item n (copied ++ [a])
      | none => ret copied).run s = _
    rw [hitem]
    cases ha : l[copied.length]? with
    | some a =>
      have hmore : copied ++ [a] = l.take (copied ++ [a]).length := by
        rw [List.length_append, List.length_singleton, List.take_add_one, ← h, ha]
        rfl
      have hrest := ih (copied ++ [a]) hmore
      rw [List.length_append, List.length_singleton, Nat.add_right_comm, Nat.add_assoc] at hrest
      exact hrest
    | none =>
      have hend := List.getElem?_eq_none_iff.mp ha
      rw [List.take_of_length_le (Nat.le_trans hend (Nat.le_add_right _ _))]
      rw [List.take_of_length_le hend] at h
      exact congrArg (fun c => (c, s)) h

theorem told_copyLoop (item : σ → ℕ → Option α) (n : ℕ) (copied : List α) (s : σ) :
    (copyLoop item n copied).told s = 0 := by
  induction n generalizing copied with
  | zero => rfl
  | succ n ih =>
    show (match item s copied.length with
      | some a => copyLoop item n (copied ++ [a])
      | none => ret copied).told s = 0
    cases item s copied.length with
    | some a => exact ih (copied ++ [a])
    | none => rfl

/-- A copy tells nothing. -/
theorem told_copy (count : σ → ℕ) (item : σ → ℕ → Option α) (s : σ) :
    (copy count item).told s = 0 :=
  told_copyLoop item (count s) [] s

/-- **A copy that no one interrupts is whole**, and changes nothing. -/
theorem run_copy {count : σ → ℕ} {item : σ → ℕ → Option α} {s : σ} {l : List α}
    (hcount : count s = l.length) (hitem : ∀ i, item s i = l[i]?) :
    (copy count item).run s = (l, s) := by
  have hloop := run_copyLoop hitem (count s) [] rfl
  rw [List.length_nil, Nat.zero_add, hcount, List.take_length] at hloop
  show (copyLoop item (count s) []).run s = _
  rw [hcount]
  exact hloop

end Resumption
