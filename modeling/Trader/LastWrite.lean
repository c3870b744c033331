import Mathlib.Data.List.Basic
import Mathlib.Logic.Function.Basic

set_option autoImplicit false

/-!
# The last write decides

A keyed store that is only ever written – a key set, a key removed,
everything cleared – holds at each key what the last operation touching
that key left there, and what it held before if none does. Nothing else
about the order of the operations matters, which is what makes a history
of writes comparable with another one: two histories with the same last
writes lead to the same store.

The store is the function a reader sees, `K → Option V`, so that a map
of any representation is compared with it through its lookup.
-/

/-- What a function makes of a list it makes of the members it does not send to
nothing. -/
theorem List.flatMap_filter_of_eq_nil {α β : Type*} {f : α → List β} {p : α → Bool}
    {l : List α} (h : ∀ a ∈ l, p a = false → f a = []) :
    (l.filter p).flatMap f = l.flatMap f := by
  induction l with
  | nil => rfl
  | cons a l ih =>
    obtain ⟨ha, hl⟩ := List.forall_mem_cons.mp h
    rw [List.filter_cons, List.flatMap_cons, ← ih hl]
    cases hp : p a with
    | true => rfl
    | false =>
      rw [ha hp]
      rfl

/-- Either no member of a list has a property or one is the last to. -/
theorem List.forall_not_or_exists_last {α : Type*} (p : α → Prop) (l : List α) :
    (∀ a ∈ l, ¬ p a) ∨
      ∃ pre a post, l = pre ++ a :: post ∧ p a ∧ ∀ a' ∈ post, ¬ p a' := by
  induction l with
  | nil => exact Or.inl (fun a ha => absurd ha List.not_mem_nil)
  | cons a l ih =>
    rcases ih with hnone | ⟨pre, a', post, rfl, ha', hpost⟩
    · by_cases ha : p a
      · exact Or.inr ⟨[], a, l, rfl, ha, hnone⟩
      · exact Or.inl (List.forall_mem_cons.mpr ⟨ha, hnone⟩)
    · exact Or.inr ⟨a :: pre, a', post, rfl, ha', hpost⟩

/-- **A write to a keyed store.** -/
inductive KeyOp (K V : Type*) where
  /-- Set a key to a value, whether or not it was there. -/
  | set : K → V → KeyOp K V
  /-- Remove a key, if it is there. -/
  | remove : K → KeyOp K V
  /-- Remove every key. -/
  | clear : KeyOp K V
  deriving DecidableEq

namespace KeyOp

variable {K V : Type*} [DecidableEq K]

/-- What an operation makes of a store. -/
def apply : KeyOp K V → (K → Option V) → K → Option V
  | set k v, m => Function.update m k (some v)
  | remove k, m => Function.update m k none
  | clear, _ => fun _ => none

/-- A history of operations, run in order. -/
def run (ops : List (KeyOp K V)) (m : K → Option V) : K → Option V :=
  ops.foldl (fun m o => o.apply m) m

/-- Whether an operation decides what is at a key. -/
def Affects (k : K) : KeyOp K V → Prop
  | set k' _ => k' = k
  | remove k' => k' = k
  | clear => True

instance (k : K) : DecidablePred (Affects (V := V) k)
  | set _ _ => inferInstanceAs (Decidable (_ = _))
  | remove _ => inferInstanceAs (Decidable (_ = _))
  | clear => inferInstanceAs (Decidable True)

/-- What an operation leaves at the keys it affects. -/
def result : KeyOp K V → Option V
  | set _ v => some v
  | remove _ => none
  | clear => none

/-- Whether an operation sets a key. -/
def isSet : KeyOp K V → Bool
  | set _ _ => true
  | remove _ => false
  | clear => false

/-- An operation leaves its result where it acts and the store as it was
everywhere else. -/
theorem apply_eq (o : KeyOp K V) (m : K → Option V) (k : K) :
    o.apply m k = if o.Affects k then o.result else m k := by
  cases o with
  | set k' v =>
    show Function.update m k' (some v) k = if k' = k then some v else m k
    rw [Function.update_apply]
    exact if_congr eq_comm rfl rfl
  | remove k' =>
    show Function.update m k' none k = if k' = k then none else m k
    rw [Function.update_apply]
    exact if_congr eq_comm rfl rfl
  | clear => exact (if_pos trivial).symm

@[simp] theorem run_nil (m : K → Option V) : run [] m = m := rfl

@[simp] theorem run_cons (o : KeyOp K V) (ops : List (KeyOp K V))
    (m : K → Option V) : run (o :: ops) m = run ops (o.apply m) := rfl

/-- Histories compose. -/
theorem run_append (ops ops' : List (KeyOp K V)) (m : K → Option V) :
    run (ops ++ ops') m = run ops' (run ops m) :=
  List.foldl_append

/-- A history none of whose operations affects a key leaves it alone. -/
theorem run_of_not_affects {ops : List (KeyOp K V)} {k : K}
    (h : ∀ o ∈ ops, ¬ o.Affects k) (m : K → Option V) :
    run ops m k = m k := by
  induction ops generalizing m with
  | nil => rfl
  | cons o ops ih =>
    rw [run_cons, ih (fun o' ho' => h o' (List.mem_cons_of_mem o ho')), apply_eq,
      if_neg (h o List.mem_cons_self)]

/-- **The last operation affecting `k` is a set of `k` to `v`.** -/
def LastSet (ops : List (KeyOp K V)) (k : K) (v : V) : Prop :=
  ∃ pre post, ops = pre ++ set k v :: post ∧ ∀ o ∈ post, ¬ o.Affects k

/-- What the last operation affecting a key leaves is what the run leaves. -/
theorem run_of_last {o : KeyOp K V} {post : List (KeyOp K V)} {k : K}
    (ho : o.Affects k) (hpost : ∀ o' ∈ post, ¬ o'.Affects k)
    (pre : List (KeyOp K V)) (m : K → Option V) :
    run (pre ++ o :: post) m k = o.result := by
  rw [run_append, run_cons, run_of_not_affects hpost, apply_eq, if_pos ho]

omit [DecidableEq K] in
/-- Only a set of a key leaves a value there. -/
theorem eq_set_of_result {o : KeyOp K V} {k : K} {v : V} (ho : o.Affects k)
    (h : o.result = some v) : o = set k v := by
  cases o with
  | set k' v' =>
    obtain rfl : k' = k := ho
    obtain rfl : v' = v := Option.some.inj h
    rfl
  | remove k' => exact absurd h (by simp [result])
  | clear => exact absurd h (by simp [result])

/-- **The last write decides.** From an empty store, a run holds `v` at `k`
exactly when the last operation that affects `k` sets it to `v`. -/
theorem run_empty_eq_some_iff (ops : List (KeyOp K V)) (k : K) (v : V) :
    run ops (fun _ => none) k = some v ↔ LastSet ops k v := by
  constructor
  · intro h
    rcases List.forall_not_or_exists_last (Affects k) ops with
    hnone | ⟨pre, o, post, rfl, ho, hpost⟩
    · rw [run_of_not_affects hnone] at h
      exact absurd h (by simp)
    · rw [run_of_last ho hpost] at h
      exact ⟨pre, post, by rw [eq_set_of_result ho h], hpost⟩
  · rintro ⟨pre, post, rfl, hpost⟩
    exact run_of_last (o := set k v) rfl hpost pre _

/-- **What a run leaves was set by it**, or was there before. -/
theorem set_mem_of_run_eq_some {ops : List (KeyOp K V)} {m : K → Option V} {k : K} {v : V}
    (h : run ops m k = some v) : set k v ∈ ops ∨ m k = some v := by
  rcases List.forall_not_or_exists_last (Affects k) ops with
    hnone | ⟨pre, o, post, rfl, ho, hpost⟩
  · rw [run_of_not_affects hnone] at h
    exact Or.inr h
  · rw [run_of_last ho hpost] at h
    rw [eq_set_of_result ho h]
    exact Or.inl (List.mem_append_right pre List.mem_cons_self)

/-- **What is at a key is the work of the operations affecting it.** -/
theorem run_filter_affects (ops : List (KeyOp K V)) (k : K) (m : K → Option V) :
    run (ops.filter (fun o => o.Affects k)) m k = run ops m k := by
  rcases List.forall_not_or_exists_last (Affects k) ops with
    hnone | ⟨pre, o, post, rfl, ho, hpost⟩
  · rw [List.filter_eq_nil_iff.mpr (fun o ho => by simpa using hnone o ho), run_nil,
      run_of_not_affects hnone]
  · rw [List.filter_append, List.filter_cons, if_pos (decide_eq_true ho), run_of_last ho hpost,
      run_of_last ho]
    intro o' ho'
    exact hpost o' (List.mem_of_mem_filter ho')

/-- **A history run twice is a history run once.** -/
theorem run_run (ops : List (KeyOp K V)) (m : K → Option V) :
    run ops (run ops m) = run ops m := by
  funext k
  rcases List.forall_not_or_exists_last (Affects k) ops with
    hnone | ⟨pre, o, post, rfl, ho, hpost⟩
  · rw [run_of_not_affects hnone]
  · rw [run_of_last ho hpost, run_of_last ho hpost]

/-- Nothing before a clear matters. -/
theorem run_append_clear (pre post : List (KeyOp K V)) (m : K → Option V) :
    run (pre ++ clear :: post) m = run post (fun _ => none) := by
  rw [run_append, run_cons]
  rfl

/-- **A store is the run of its own entries.** Setting, in any order, the
entries of a table with distinct keys gives the store with those entries. -/
theorem run_map_set {l : List (K × V)} (hl : (l.map Prod.fst).Nodup)
    {m : K → Option V} (hm : ∀ k v, m k = some v ↔ (k, v) ∈ l) :
    run (l.map (fun e => set e.1 e.2)) (fun _ => none) = m := by
  have hmem : ∀ k v, LastSet (l.map (fun e => set e.1 e.2)) k v ↔ (k, v) ∈ l := by
    intro k v
    constructor
    · rintro ⟨pre, post, heq, -⟩
      have hin : set k v ∈ l.map (fun e => set e.1 e.2) := by
        rw [heq]
        exact List.mem_append_right _ List.mem_cons_self
      obtain ⟨e, he, hek⟩ := List.mem_map.mp hin
      obtain ⟨rfl, rfl⟩ := KeyOp.set.inj hek
      exact he
    · intro hin
      obtain ⟨pre, post, rfl⟩ := List.append_of_mem hin
      refine ⟨pre.map (fun e => set e.1 e.2), post.map (fun e => set e.1 e.2),
        by rw [List.map_append, List.map_cons], ?_⟩
      intro o ho
      obtain ⟨e, he, rfl⟩ := List.mem_map.mp ho
      rw [List.map_append, List.map_cons] at hl
      intro hek
      have hk : k ∉ post.map Prod.fst :=
        (List.nodup_cons.mp (List.nodup_append.mp hl).2.1).1
      exact hk (List.mem_map.mpr ⟨e, he, hek⟩)
  funext k
  refine Option.ext (fun v => ?_)
  rw [run_empty_eq_some_iff, hmem k v, ← hm k v]

end KeyOp
