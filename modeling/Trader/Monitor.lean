import Mathlib.Logic.Function.Basic
import Trader.Transition
import Trader.Resumption

set_option autoImplicit false

/-!
# An object behind a lock

Threads call operations on an object. Every operation takes the object's
lock, runs its steps on the object as it finds it, and releases the lock
when it returns; steps of other threads fall between any two of its own, and
what it tells those outside they may see while it still has the lock. That is
the object as it is written (`locked`). What it is meant to be is an object
whose operations take effect in one go, somewhere between the call and the
return, and tell from then on (`atomic`).

The second simulates the first (`refines`): whatever clients see of the
object behind the lock, its calls and returns, what it returns and what it
tells, they could have seen of the one whose operations are indivisible. The
relation that carries this takes an operation to have had its effect as soon
as it has the lock: what the holder has still to run gives, from the object
as it is, the object it is taken for.
-/

namespace Monitor

open Transition

/-- What passes between clients and an object: thread `i` calls an operation,
and the operation returns to it, having told those outside something or not. -/
inductive Call (ι O ρ : Type) where
  | call (i : ι) (op : O)
  | told (i : ι)
  | ret (i : ι) (r : ρ)

variable {ι σ O ρ : Type}

/-! ## The object whose operations are indivisible -/

/-- How an operation of a thread stands. -/
inductive Status (O ρ : Type) where
  | idle
  /-- Called, and yet to take effect. -/
  | called (op : O)
  /-- It has taken effect, and is yet to tell those outside `n` times and to
  return. -/
  | done (n : ℕ) (r : ρ)

/-- An object, and how the operations of its threads stand. -/
structure Atomic (ι σ O ρ : Type) where
  state : σ
  status : ι → Status O ρ

/-- The operation of a thread comes to stand otherwise. -/
def Atomic.move [DecidableEq ι] (a : Atomic ι σ O ρ) (i : ι) (q : Status O ρ) : Atomic ι σ O ρ :=
  { a with status := Function.update a.status i q }

section Move

variable [DecidableEq ι]

@[simp] theorem Atomic.state_move (a : Atomic ι σ O ρ) (i : ι) (q : Status O ρ) :
    (a.move i q).state = a.state := rfl

@[simp] theorem Atomic.status_move_self (a : Atomic ι σ O ρ) (i : ι) (q : Status O ρ) :
    (a.move i q).status i = q := by
  show Function.update a.status i q i = q
  rw [Function.update_self]

theorem Atomic.status_move_of_ne (a : Atomic ι σ O ρ) {i j : ι} (h : j ≠ i) (q : Status O ρ) :
    (a.move i q).status j = a.status j := by
  show Function.update a.status i q j = a.status j
  rw [Function.update_of_ne h]

end Move

/-- An operation takes effect in one step, and tells as often as `tells` says
of what it has found and left. -/
inductive AtomicStep [DecidableEq ι] (apply : O → σ → ρ × σ) (tells : O → ℕ → σ → σ → Prop) :
    Atomic ι σ O ρ → Option (Call ι O ρ) → Atomic ι σ O ρ → Prop
  | call {a : Atomic ι σ O ρ} {i : ι} (op : O) : a.status i = .idle →
    AtomicStep apply tells a (some (.call i op)) (a.move i (.called op))
  | commit {a : Atomic ι σ O ρ} {i : ι} {op : O} {n : ℕ} : a.status i = .called op →
    tells op n a.state (apply op a.state).2 →
    AtomicStep apply tells a none
      (Atomic.move { a with state := (apply op a.state).2 } i (.done n (apply op a.state).1))
  | tell {a : Atomic ι σ O ρ} {i : ι} {n : ℕ} {r : ρ} : a.status i = .done (n + 1) r →
    AtomicStep apply tells a (some (.told i)) (a.move i (.done n r))
  | ret {a : Atomic ι σ O ρ} {i : ι} {r : ρ} : a.status i = .done 0 r →
    AtomicStep apply tells a (some (.ret i r)) (a.move i .idle)

/-- **The object with indivisible operations.** -/
def atomic (ι : Type) [DecidableEq ι] (apply : O → σ → ρ × σ) (tells : O → ℕ → σ → σ → Prop)
    (s₀ : σ) : Machine (Atomic ι σ O ρ) (Call ι O ρ) where
  init a := a = ⟨s₀, fun _ => .idle⟩
  step := AtomicStep apply tells

/-! ## The object behind a lock -/

/-- Where a thread stands in an operation. -/
inductive Place (σ O ρ : Type) where
  | idle
  /-- At the lock. -/
  | waiting (op : O)
  /-- Holding the lock, with what is left of the operation. -/
  | running (p : Resumption σ ρ)
  /-- Past the lock, with what it will return. -/
  | finished (r : ρ)

/-- An object, who holds its lock, and where its threads stand. -/
structure Locked (ι σ O ρ : Type) where
  state : σ
  holder : Option ι
  place : ι → Place σ O ρ

/-- An operation runs step by step, holding the lock. -/
inductive LockedStep [DecidableEq ι] (code : O → Resumption σ ρ) :
    Locked ι σ O ρ → Option (Call ι O ρ) → Locked ι σ O ρ → Prop
  | call {c : Locked ι σ O ρ} {i : ι} (op : O) : c.place i = .idle →
    LockedStep code c (some (.call i op))
      { c with place := Function.update c.place i (.waiting op) }
  | acquire {c : Locked ι σ O ρ} {i : ι} {op : O} : c.place i = .waiting op → c.holder = none →
    LockedStep code c none
      { c with holder := some i, place := Function.update c.place i (.running (code op)) }
  | act {c : Locked ι σ O ρ} {i : ι} {f : σ → σ} {next : σ → Resumption σ ρ} :
    c.place i = .running (.act f next) →
    LockedStep code c none
      { c with state := f c.state, place := Function.update c.place i (.running (next c.state)) }
  | tell {c : Locked ι σ O ρ} {i : ι} {p : Resumption σ ρ} : c.place i = .running (.tell p) →
    LockedStep code c (some (.told i))
      { c with place := Function.update c.place i (.running p) }
  | release {c : Locked ι σ O ρ} {i : ι} {r : ρ} : c.place i = .running (.ret r) →
    LockedStep code c none
      { c with holder := none, place := Function.update c.place i (.finished r) }
  | ret {c : Locked ι σ O ρ} {i : ι} {r : ρ} : c.place i = .finished r →
    LockedStep code c (some (.ret i r)) { c with place := Function.update c.place i .idle }

/-- **The object behind a lock.** -/
def locked (ι : Type) [DecidableEq ι] (code : O → Resumption σ ρ) (s₀ : σ) :
    Machine (Locked ι σ O ρ) (Call ι O ρ) where
  init c := c = ⟨s₀, none, fun _ => .idle⟩
  step := LockedStep code

/-! ## The second simulates the first -/

/-- What a place in an operation stands for: an operation that holds the lock
has taken effect, and what is left of it gives from the object as it is (`s`)
the object that effect has made (`s'`), telling as often as there is left to
tell. -/
def StandsFor (s s' : σ) : Place σ O ρ → Status O ρ → Prop
  | .idle, .idle => True
  | .waiting op, .called op' => op = op'
  | .running p, .done n r => p.run s = (r, s') ∧ p.told s = n
  | .finished r, .done n r' => n = 0 ∧ r = r'
  | _, _ => False

section StandsFor

variable {s s' : σ} {q : Status O ρ}

theorem standsFor_idle : StandsFor s s' .idle q ↔ q = .idle := by
  cases q with
  | idle => exact iff_of_true trivial rfl
  | called op => exact iff_of_false id nofun
  | done n r => exact iff_of_false id nofun

theorem standsFor_waiting {op : O} : StandsFor s s' (.waiting op) q ↔ q = .called op := by
  cases q with
  | idle => exact iff_of_false id nofun
  | called op' =>
    rw [Status.called.injEq]
    exact eq_comm
  | done n r => exact iff_of_false id nofun

theorem standsFor_running {p : Resumption σ ρ} :
    StandsFor s s' (.running p) q ↔ ∃ r, q = .done (p.told s) r ∧ p.run s = (r, s') := by
  cases q with
  | idle => exact iff_of_false id nofun
  | called op => exact iff_of_false id nofun
  | done n r =>
    constructor
    · rintro ⟨hrun, rfl⟩
      exact ⟨r, rfl, hrun⟩
    · rintro ⟨r', hr, hrun⟩
      obtain ⟨rfl, rfl⟩ := Status.done.inj hr
      exact ⟨hrun, rfl⟩

theorem standsFor_finished {r : ρ} : StandsFor s s' (.finished r) q ↔ q = .done 0 r := by
  cases q with
  | idle => exact iff_of_false id nofun
  | called op => exact iff_of_false id nofun
  | done n r' =>
    rw [Status.done.injEq]
    exact and_congr_right' eq_comm

end StandsFor

/-- A place that is not in the lock. -/
def Place.Outside : Place σ O ρ → Prop
  | .running _ => False
  | _ => True

/-- What a place outside the lock stands for does not depend on the object. -/
theorem StandsFor.outside {s s' t t' : σ} {p : Place σ O ρ} {q : Status O ρ}
    (h : StandsFor s s' p q) (hp : p.Outside) : StandsFor t t' p q := by
  cases p with
  | running p => exact hp.elim
  | idle => exact standsFor_idle.mpr (standsFor_idle.mp h)
  | waiting op => exact standsFor_waiting.mpr (standsFor_waiting.mp h)
  | finished r => exact standsFor_finished.mpr (standsFor_finished.mp h)

/-- **The relation of the simulation.** The threads stand as the operations
do, only the holder of the lock is in it, and while no one holds it the
objects are the same. -/
structure Rel (c : Locked ι σ O ρ) (a : Atomic ι σ O ρ) : Prop where
  stands : ∀ i, StandsFor c.state a.state (c.place i) (a.status i)
  inside : ∀ i p, c.place i = .running p → c.holder = some i
  free : c.holder = none → c.state = a.state

section Rel

variable {c : Locked ι σ O ρ} {a : Atomic ι σ O ρ} {i : ι}

theorem Rel.outside (h : Rel c a) {j : ι} (hj : c.holder ≠ some j) : (c.place j).Outside := by
  cases hp : c.place j with
  | running p => exact absurd (h.inside j p hp) hj
  | idle => trivial
  | waiting op => trivial
  | finished r => trivial

/-- One thread holds the lock. -/
theorem holder_ne (hholder : c.holder = some i) {j : ι} (hj : j ≠ i) : c.holder ≠ some j := by
  intro heq
  rw [hholder] at heq
  exact hj (Option.some.inj heq).symm

/-- The thread in the lock, and what its operation is yet to tell and to
return. -/
theorem Rel.running (h : Rel c a) {p : Resumption σ ρ} (hrun : c.place i = .running p) :
    c.holder = some i ∧ ∃ r, a.status i = .done (p.told c.state) r
      ∧ p.run c.state = (r, a.state) := by
  have hi := h.stands i
  rw [hrun, standsFor_running] at hi
  exact ⟨h.inside i p hrun, hi⟩

variable [DecidableEq ι]

/-- When thread `i` moves and the objects change no others are in the lock to
see it. -/
theorem stands_update {s s' : σ} {p : Place σ O ρ} {q : Status O ρ} (hi : StandsFor s s' p q)
    (hothers : ∀ j, j ≠ i → StandsFor s s' (c.place j) (a.status j)) (j : ι) :
    StandsFor s s' (Function.update c.place i p j) (Function.update a.status i q j) := by
  by_cases hj : j = i
  · subst hj
    rw [Function.update_self, Function.update_self]
    exact hi
  · rw [Function.update_of_ne hj, Function.update_of_ne hj]
    exact hothers j hj

/-- The same, when only the place of `i` changes. -/
theorem stands_move {s : σ} {p : Place σ O ρ} (hi : StandsFor s a.state p (a.status i))
    (hothers : ∀ j, j ≠ i → StandsFor s a.state (c.place j) (a.status j)) (j : ι) :
    StandsFor s a.state (Function.update c.place i p j) (a.status j) := by
  have hj := stands_update hi hothers j
  rwa [Function.update_eq_self] at hj

/-- Thread `i` moves to a place outside the lock. -/
theorem Rel.inside_update (h : Rel c a) {p : Place σ O ρ} (hp : p.Outside) (j : ι)
    (q : Resumption σ ρ) (hj : Function.update c.place i p j = .running q) :
    j ≠ i ∧ c.holder = some j := by
  by_cases hji : j = i
  · subst hji
    rw [Function.update_self] at hj
    rw [hj] at hp
    exact hp.elim
  · rw [Function.update_of_ne hji] at hj
    exact ⟨hji, h.inside j q hj⟩

/-- Thread `i`, which has the lock, goes on in it. -/
theorem Rel.inside_running (h : Rel c a) (hholder : c.holder = some i) {p : Resumption σ ρ}
    (j : ι) (q : Resumption σ ρ)
    (hj : Function.update c.place i (.running p) j = .running q) : c.holder = some j := by
  by_cases hji : j = i
  · rw [hji]
    exact hholder
  · rw [Function.update_of_ne hji] at hj
    exact h.inside j q hj

theorem Rel.call (h : Rel c a) (op : O) (hidle : c.place i = .idle) :
    a.status i = .idle ∧ Rel { c with place := Function.update c.place i (.waiting op) }
      (a.move i (.called op)) := by
  have hi := h.stands i
  rw [hidle, standsFor_idle] at hi
  refine ⟨hi, stands_update rfl (fun j _ => h.stands j), fun j q hj => ?_, h.free⟩
  exact (h.inside_update (p := .waiting op) trivial j q hj).2

/-- **An operation takes effect when it takes the lock.** -/
theorem Rel.acquire (h : Rel c a) {code : O → Resumption σ ρ} {apply : O → σ → ρ × σ}
    (hcode : ∀ op s, (code op).run s = apply op s) {op : O} (hwait : c.place i = .waiting op)
    (hfree : c.holder = none) :
    a.status i = .called op ∧ c.state = a.state
      ∧ Rel { c with holder := some i, place := Function.update c.place i (.running (code op)) }
        (Atomic.move { a with state := (apply op a.state).2 } i
          (.done ((code op).told a.state) (apply op a.state).1)) := by
  have hstate := h.free hfree
  have hout : ∀ j, (c.place j).Outside := fun j => h.outside (by rw [hfree]; exact nofun)
  have hi := h.stands i
  rw [hwait, standsFor_waiting] at hi
  refine ⟨hi, hstate, ?_, fun j q hj => ?_, nofun⟩
  · refine stands_update ?_ (fun j _ => (h.stands j).outside (hout j))
    refine standsFor_running.mpr ⟨(apply op a.state).1, ?_, ?_⟩
    · rw [hstate]
    · rw [hstate, hcode]
      rfl
  · by_cases hji : j = i
    · rw [hji]
    · have hj' : Function.update c.place i (.running (code op)) j = .running q := hj
      rw [Function.update_of_ne hji] at hj'
      have hj'' := hout j
      rw [hj'] at hj''
      exact hj''.elim

/-- **A step in the lock leaves less to run**, to the same end. -/
theorem Rel.act (h : Rel c a) {f : σ → σ} {next : σ → Resumption σ ρ}
    (hrun : c.place i = .running (.act f next)) :
    Rel
      { c with state := f c.state, place := Function.update c.place i (.running (next c.state)) }
      a := by
  obtain ⟨hholder, r, hr, hrest⟩ := h.running hrun
  refine ⟨?_, h.inside_running hholder, fun hnone => ?_⟩
  · exact stands_move (standsFor_running.mpr ⟨r, hr, hrest⟩)
      (fun j hj => (h.stands j).outside (h.outside (holder_ne hholder hj)))
  · have hnone' : c.holder = none := hnone
    rw [hholder] at hnone'
    cases hnone'

/-- What it tells it was yet to tell. -/
theorem Rel.tell (h : Rel c a) {p : Resumption σ ρ} (hrun : c.place i = .running (.tell p)) :
    ∃ n r, a.status i = .done (n + 1) r
      ∧ Rel { c with place := Function.update c.place i (.running p) } (a.move i (.done n r)) := by
  obtain ⟨hholder, r, hr, hrest⟩ := h.running hrun
  refine ⟨p.told c.state, r, hr, ?_, h.inside_running hholder, h.free⟩
  exact stands_update (standsFor_running.mpr ⟨r, rfl, hrest⟩) (fun j _ => h.stands j)

theorem Rel.release (h : Rel c a) {r : ρ} (hrun : c.place i = .running (.ret r)) :
    Rel { c with holder := none, place := Function.update c.place i (.finished r) } a := by
  obtain ⟨hholder, r', hr, hrest⟩ := h.running hrun
  obtain ⟨rfl, hstate⟩ := Prod.mk.inj hrest
  refine ⟨stands_move (standsFor_finished.mpr hr) (fun j _ => h.stands j), fun j q hj => ?_,
    fun _ => hstate⟩
  obtain ⟨hji, hj'⟩ := h.inside_update (p := .finished r) trivial j q hj
  exact absurd hj' (holder_ne hholder hji)

theorem Rel.ret (h : Rel c a) {r : ρ} (hfin : c.place i = .finished r) :
    a.status i = .done 0 r ∧ Rel { c with place := Function.update c.place i .idle }
      (a.move i .idle) := by
  have hi := h.stands i
  rw [hfin, standsFor_finished] at hi
  refine ⟨hi, stands_update trivial (fun j _ => h.stands j), fun j q hj => ?_, h.free⟩
  exact (h.inside_update (p := .idle) trivial j q hj).2

end Rel

/-- **The object behind a lock is the one whose operations are
indivisible**, to whoever calls it. -/
def refines [DecidableEq ι] {code : O → Resumption σ ρ} {apply : O → σ → ρ × σ}
    {tells : O → ℕ → σ → σ → Prop} (hcode : ∀ op s, (code op).run s = apply op s)
    (htells : ∀ op s, tells op ((code op).told s) s (apply op s).2) (s₀ : σ) :
    Simulation (locked ι code s₀) (atomic ι apply tells s₀) where
  rel := Rel
  init := by
    rintro c rfl
    exact ⟨_, rfl, fun _ => trivial, nofun, fun _ => rfl⟩
  step := by
    intro c l c' a h hstep
    cases hstep with
    | call op hidle =>
      obtain ⟨ha, hrel⟩ := h.call op hidle
      exact ⟨_, Machine.Run.single (AtomicStep.call op ha), hrel⟩
    | @acquire i op hwait hfree =>
      obtain ⟨hop, -, hrel⟩ := h.acquire hcode hwait hfree
      exact ⟨_, Machine.Run.single (AtomicStep.commit hop (htells op a.state)), hrel⟩
    | act hrun => exact ⟨a, Machine.Run.refl, h.act hrun⟩
    | tell hrun =>
      obtain ⟨n, r, hr, hrel⟩ := h.tell hrun
      exact ⟨_, Machine.Run.single (AtomicStep.tell hr), hrel⟩
    | release hrun => exact ⟨a, Machine.Run.refl, h.release hrun⟩
    | ret hfin =>
      obtain ⟨ha, hrel⟩ := h.ret hfin
      exact ⟨_, Machine.Run.single (AtomicStep.ret ha), hrel⟩

/-! ## The lock comes free -/

/-- Who is in the lock holds it, and who holds it is in it. -/
structure Held (c : Locked ι σ O ρ) : Prop where
  inside : ∀ i p, c.place i = .running p → c.holder = some i
  holder : ∀ i, c.holder = some i → ∃ p, c.place i = .running p

section Held

variable [DecidableEq ι] {code : O → Resumption σ ρ} {c c' : Locked ι σ O ρ} {i : ι}

/-- A thread that moves outside the lock changes nothing about it. -/
theorem Held.update (h : Held c) {p : Place σ O ρ} (hp : p.Outside)
    (hi : (c.place i).Outside) : Held { c with place := Function.update c.place i p } := by
  have hne : ∀ j, c.holder = some j → j ≠ i := by
    rintro j hj rfl
    obtain ⟨q, hq⟩ := h.holder j hj
    rw [hq] at hi
    exact hi.elim
  refine ⟨fun j q hj => ?_, fun j hj => ?_⟩
  · by_cases hji : j = i
    · subst hji
      have hq : Function.update c.place j p j = .running q := hj
      rw [Function.update_self] at hq
      rw [hq] at hp
      exact hp.elim
    · have hq : Function.update c.place i p j = .running q := hj
      rw [Function.update_of_ne hji] at hq
      exact h.inside j q hq
  · obtain ⟨q, hq⟩ := h.holder j hj
    exact ⟨q, (Function.update_of_ne (hne j hj) _ _).trans hq⟩

/-- A thread that is the only one to hold the lock, or comes to. -/
theorem held_running {s : σ} {p : Resumption σ ρ}
    (hothers : ∀ j q, j ≠ i → c.place j ≠ .running q) :
    Held (⟨s, some i, Function.update c.place i (.running p)⟩ : Locked ι σ O ρ) := by
  refine ⟨fun j q hj => ?_, fun j hj => ?_⟩
  · by_cases hji : j = i
    · rw [hji]
    · have hq : Function.update c.place i (.running p) j = .running q := hj
      rw [Function.update_of_ne hji] at hq
      exact absurd hq (hothers j q hji)
  · obtain rfl := Option.some.inj hj
    exact ⟨p, Function.update_self _ _ _⟩

theorem Held.step (h : Held c) {l : Option (Call ι O ρ)} (hstep : LockedStep code c l c') :
    Held c' := by
  cases hstep with
  | call op hidle => exact h.update (p := .waiting op) trivial (by rw [hidle]; exact trivial)
  | acquire hwait hfree =>
    refine held_running (fun j q _ hj => ?_)
    have hj' := h.inside j q hj
    rw [hfree] at hj'
    cases hj'
  | @act i f next hrun =>
    have hi := h.inside i _ hrun
    rw [hi]
    refine held_running (fun j q hji hj => hji ?_)
    exact Option.some.inj ((h.inside j q hj).symm.trans hi)
  | @tell i p hrun =>
    have hi := h.inside i _ hrun
    rw [hi]
    refine held_running (fun j q hji hj => hji ?_)
    exact Option.some.inj ((h.inside j q hj).symm.trans hi)
  | @release i r hrun =>
    have hi := h.inside i _ hrun
    refine ⟨fun j q hj => ?_, nofun⟩
    have hj' : Function.update c.place i (.finished r) j = .running q := hj
    by_cases hji : j = i
    · rw [hji, Function.update_self] at hj'
      cases hj'
    · rw [Function.update_of_ne hji] at hj'
      exact absurd (Option.some.inj ((h.inside j q hj').symm.trans hi)) hji
  | ret hfin => exact h.update (p := .idle) trivial (by rw [hfin]; exact trivial)

/-- Where a thread that has moved is. -/
theorem Locked.place_update_self (s : σ) (holder : Option ι) (place : ι → Place σ O ρ) (i : ι)
    (p : Place σ O ρ) : (⟨s, holder, Function.update place i p⟩ : Locked ι σ O ρ).place i = p :=
  Function.update_self i p place

variable (code) (s₀ : σ)

/-- **Who is in the lock can leave it**, with what is left of the operation
run to its end. -/
theorem run_of_running {p : Resumption σ ρ} (h : c.place i = .running p) :
    (locked ι code s₀).Run c (List.replicate (p.told c.state) (.told i))
      ⟨(p.run c.state).2, none, Function.update c.place i (.finished (p.run c.state).1)⟩ := by
  induction p generalizing c with
  | ret r => exact Machine.Run.refl.tail (l := none) (LockedStep.release h)
  | act f next ih =>
    have hrest := ih c.state
      (c := ⟨f c.state, c.holder, Function.update c.place i (.running (next c.state))⟩)
      (Function.update_self i _ _)
    rw [Function.update_idem] at hrest
    exact (Machine.Run.refl.tail (l := none) (LockedStep.act h)).trans hrest
  | tell p ih =>
    have hrest := ih (c := ⟨c.state, c.holder, Function.update c.place i (.running p)⟩)
      (Function.update_self i _ _)
    rw [Function.update_idem] at hrest
    exact (Machine.Run.refl.tail (l := some _) (LockedStep.tell h)).trans hrest

/-- Who waits for a lock that is free can run the whole operation. -/
theorem run_of_waiting {op : O} (hwait : c.place i = .waiting op) (hfree : c.holder = none) :
    (locked ι code s₀).Run c (List.replicate ((code op).told c.state) (.told i))
      ⟨((code op).run c.state).2, none,
        Function.update c.place i (.finished ((code op).run c.state).1)⟩ := by
  have hrun := run_of_running code s₀
    (c := ⟨c.state, some i, Function.update c.place i (.running (code op))⟩)
    (Function.update_self i _ _)
  rw [Function.update_idem] at hrun
  exact (Machine.Run.refl.tail (l := none) (LockedStep.acquire hwait hfree)).trans hrun

/-- An object with no one at it. -/
def unattended (s : σ) : Locked ι σ O ρ := ⟨s, none, fun _ => .idle⟩

/-- **An operation that waits for the lock**, which is free: it runs to its end
and returns to the client, others perhaps waiting meanwhile. -/
theorem run_of_called {κ γ : Type} {see : Call ι O ρ → Option γ}
    (C : Machine κ (γ ⊕ Call ι O ρ)) {k k' : κ} {s' : σ} {op : O} {r : ρ}
    (hwait : c.place i = .waiting op) (hfree : c.holder = none)
    (htold : (code op).told c.state ≠ 0 → C.step k (some (.inr (.told i))) k)
    (hret : C.step k (some (.inr (.ret i r))) k') (hsee : see (.ret i r) = none)
    (hop : (code op).run c.state = (r, s')) :
    (C.attach (locked ι code s₀) see).Run (k, c)
      ((List.replicate ((code op).told c.state) (.told i)).filterMap see)
      (k', ⟨s', none, Function.update c.place i .idle⟩) := by
  have hrun := run_of_waiting code s₀ hwait hfree
  rw [hop] at hrun
  have hwhole : (C.attach (locked ι code s₀) see).Run _ _ _ :=
    run_attach_of_object hrun (fun x hx => by
      obtain ⟨hne, rfl⟩ := List.mem_replicate.mp hx
      exact htold hne)
  have hreturn : LockedStep code _ _ _ := LockedStep.ret
    (Locked.place_update_self s' none c.place i (.finished r))
  rw [Function.update_idem] at hreturn
  exact hwhole.silent (AttachStep.joint hsee hret hreturn)

/-- **An operation that no one interferes with**: a thread of a client calls
it, it runs to its end, and returns. -/
theorem run_of_operation {κ γ : Type} {see : Call ι O ρ → Option γ}
    (C : Machine κ (γ ⊕ Call ι O ρ)) {k₁ k₂ k₃ : κ} {s s' : σ} {op : O} {r : ρ}
    (hcall : C.step k₁ (some (.inr (.call i op))) k₂)
    (htold : (code op).told s ≠ 0 → C.step k₂ (some (.inr (.told i))) k₂)
    (hret : C.step k₂ (some (.inr (.ret i r))) k₃)
    (hsee : see (.call i op) = none ∧ see (.ret i r) = none)
    (hop : (code op).run s = (r, s')) :
    (C.attach (locked ι code s₀) see).Run (k₁, unattended s)
      ((List.replicate ((code op).told s) (.told i)).filterMap see) (k₃, unattended s') := by
  have hrun : (C.attach (locked ι code s₀) see).Run _ _ _ := run_of_called code s₀ C
    (Locked.place_update_self s none (fun _ => .idle) i (.waiting op)) rfl htold hret hsee.2 hop
  rw [Function.update_idem, Function.update_eq_self] at hrun
  exact (Machine.Run.refl.tail (l := none)
    (AttachStep.joint hsee.1 hcall (LockedStep.call op rfl))).trans hrun

end Held

end Monitor
