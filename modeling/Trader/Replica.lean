import Trader.LastWrite

set_option autoImplicit false

/-!
# A copy of a store that someone else changes

Someone keeps a store and says of every change what is at some of its keys
now. Whoever hears of it writes that into a copy. Two things make the copy
the store again, whatever the order of what is said, whatever is said twice,
and whatever is said of keys that have not changed: nothing that is said is
wrong (`Truthful`), and of every key that has changed something is said
(`Settles`).

An update is any value that stands for operations on the copy (`ops`), so
that one that resets the copy is covered along with those that set or remove
a key.
-/

namespace KeyOp

variable {K V γ : Type*} [DecidableEq K] {n : K → Option V}

/-- **Operations that tell the truth about a store**: what a copy has right
they leave right. -/
def Truthful (n : K → Option V) (ops : List (KeyOp K V)) : Prop :=
  ∀ (m : K → Option V) (k : K), m k = n k → run ops m k = n k

/-- **Operations that settle a key**: they make a copy right there. -/
def Settles (n : K → Option V) (ops : List (KeyOp K V)) (k : K) : Prop :=
  ∀ m : K → Option V, run ops m k = n k

theorem truthful_nil : Truthful n [] := fun _ _ h => h

theorem Truthful.append {ops ops' : List (KeyOp K V)} (h : Truthful n ops)
    (h' : Truthful n ops') : Truthful n (ops ++ ops') := by
  intro m k hm
  rw [run_append]
  exact h' _ k (h m k hm)

theorem truthful_set {k : K} {v : V} (h : n k = some v) : Truthful n [set k v] := by
  intro m k' hm
  rw [run_cons, run_nil, apply_eq]
  split_ifs with hk
  · obtain rfl : k = k' := hk
    exact h.symm
  · exact hm

theorem truthful_remove {k : K} (h : n k = none) : Truthful n [remove k] := by
  intro m k' hm
  rw [run_cons, run_nil, apply_eq]
  split_ifs with hk
  · obtain rfl : k = k' := hk
    exact h.symm
  · exact hm

theorem settles_set {k : K} {v : V} (h : n k = some v) : Settles n [set k v] k := by
  intro m
  simp [apply, h]

theorem settles_remove {k : K} (h : n k = none) : Settles n [remove k] k := by
  intro m
  simp [apply, h]

/-- Starting over with the only key there is settles all of them. -/
theorem settles_reset {k : K} {v : V} (h : n k = some v) (honly : ∀ k', k' ≠ k → n k' = none)
    (k' : K) : Settles n [clear, set k v] k' := by
  intro m
  by_cases hk : k' = k
  · subst hk
    simp [apply, h]
  · simp [apply, Function.update_of_ne hk, honly k' hk]

/-- Operations that settle every key tell the truth. -/
theorem truthful_of_settles {ops : List (KeyOp K V)} (h : ∀ k, Settles n ops k) :
    Truthful n ops :=
  fun m k _ => h k m

variable {ops : γ → List (KeyOp K V)} {us : List γ}

theorem truthful_flatMap (h : ∀ u ∈ us, Truthful n (ops u)) : Truthful n (us.flatMap ops) := by
  induction us with
  | nil => exact truthful_nil
  | cons u us ih =>
    obtain ⟨hu, hus⟩ := List.forall_mem_cons.mp h
    exact hu.append (ih hus)

/-- **Updates that lead from one store to another**: they tell the truth about
the one, and settle every key at which the other was different. -/
structure Updates (ops : γ → List (KeyOp K V)) (us : List γ) (m n : K → Option V) : Prop where
  truthful : ∀ u ∈ us, Truthful n (ops u)
  settled : ∀ k, m k ≠ n k → ∃ u ∈ us, Settles n (ops u) k

/-- **A copy that takes the updates is the store again.** -/
theorem Updates.run_eq {m : K → Option V} (h : Updates ops us m n) :
    run (us.flatMap ops) m = n := by
  funext k
  by_cases hk : m k = n k
  · exact truthful_flatMap h.truthful m k hk
  · -- right at the update that settles the key, and from there on
    obtain ⟨u, hu, hsettles⟩ := h.settled k hk
    obtain ⟨pre, post, rfl⟩ := List.append_of_mem hu
    rw [List.flatMap_append, List.flatMap_cons, run_append, run_append]
    have hpost : ∀ u' ∈ post, Truthful n (ops u') :=
      fun u' hu' => h.truthful u' (List.mem_append_right _ (List.mem_cons_of_mem _ hu'))
    exact truthful_flatMap hpost _ k (hsettles _)

end KeyOp
