import Mathlib.Data.Int.Notation
import Trader.EarlyExit

set_option autoImplicit false

/-!
# Market-data messages as the code reads them

QuickFIX hands the program a message as fields and repeating groups. The
code reads them in two moves, and both can throw: `get` fetches a field
object and throws `FieldNotFound` when the field is not set, `getValue`
converts its text and throws `IncorrectDataFormat` when the text is none
of the field's type. A field is therefore modelled by what these two
moves find: nothing, a text its convertor rejects, or the value it reads.
How QuickFIX reads a decimal text is its own business, so the type `δ` of
a price or a size is left open.

Only the fields some modelled function reads are kept.
-/

/-- A `std::string`: bytes, each written as the character of that code. -/
abbrev Text := List Char

namespace Fix

/-- **What the code can throw.** -/
inductive Exception where
  /-- `FIX::FieldNotFound`, with the tag of the field. -/
  | fieldNotFound (tag : ℕ)
  /-- `FIX::IncorrectDataFormat`, with the tag and the text of the field. -/
  | incorrectDataFormat (tag : ℕ) (text : Text)
  /-- `std::runtime_error`, with its `what()`. -/
  | runtimeError (what : Text)
  deriving DecidableEq

/-- A field object that `get` has fetched: the value `getValue` returns, or
the text it rejects. -/
abbrev FieldBase (α : Type) := Except Text α

namespace Tag

def symbol : ℕ := 55
def transactTime : ℕ := 60
def noMDEntries : ℕ := 268
def mdEntryType : ℕ := 269
def mdEntryPx : ℕ := 270
def mdEntrySize : ℕ := 271
def mdUpdateAction : ℕ := 279
def tradeID : ℕ := 1003
/-- `AGGRESSOR_TAG`, a field of Binance's own. -/
def aggressorSide : ℕ := 2446

end Tag

/-- `FIX::MDEntryType_BID`. -/
def mdEntryTypeBid : Char := '0'
/-- `FIX::MDEntryType_OFFER`. -/
def mdEntryTypeOffer : Char := '1'
/-- `FIX::MDEntryType_TRADE`. -/
def mdEntryTypeTrade : Char := '2'
/-- `FIX::MDUpdateAction_NEW`. -/
def mdUpdateActionNew : Char := '0'
/-- `FIX::MDUpdateAction_CHANGE`. -/
def mdUpdateActionChange : Char := '1'
/-- `FIX::MDUpdateAction_DELETE`. -/
def mdUpdateActionDelete : Char := '2'

/-- `get`: fetch a field that may not be set. -/
def get {σ α : Type} (tag : ℕ) : Option α → EStateM Exception σ α
  | some f => pure f
  | none => throw (.fieldNotFound tag)

/-- `getValue`: convert the text of a field. -/
def getValue {σ α : Type} (tag : ℕ) : FieldBase α → EStateM Exception σ α
  | .ok v => pure v
  | .error text => throw (.incorrectDataFormat tag text)

theorem get_ok_iff {σ α : Type} {tag : ℕ} {o : Option α} {f : α} {s s' : σ} :
    (get tag o).run s = .ok f s' ↔ o = some f ∧ s' = s := by
  cases o with
  | none => exact iff_of_false nofun nofun
  | some f' =>
    rw [get, EarlyExit.pure_ok_iff, Option.some.injEq]
    exact and_congr_left' eq_comm

theorem getValue_ok_iff {σ α : Type} {tag : ℕ} {f : FieldBase α} {v : α} {s s' : σ} :
    (getValue tag f).run s = .ok v s' ↔ f = .ok v ∧ s' = s := by
  cases f with
  | error text => exact iff_of_false nofun nofun
  | ok v' =>
    rw [getValue, EarlyExit.pure_ok_iff, Except.ok.injEq]
    exact and_congr_left' eq_comm

/-- **A fetch that throws names its field** and touches nothing. -/
theorem get_error_iff {σ α : Type} {tag : ℕ} {o : Option α} {e : Exception}
    {s s' : σ} :
    (get tag o).run s = .error e s' ↔ o = none ∧ e = .fieldNotFound tag ∧ s' = s := by
  cases o with
  | none =>
    rw [get, EarlyExit.throw_error_iff]
    exact (and_iff_right rfl).symm
  | some f => exact iff_of_false nofun nofun

/-- **A conversion that throws names its field and the text it met**, and
touches nothing. -/
theorem getValue_error_iff {σ α : Type} {tag : ℕ} {f : FieldBase α} {e : Exception}
    {s s' : σ} :
    (getValue tag f).run s = .error e s'
      ↔ ∃ text, f = .error text ∧ e = .incorrectDataFormat tag text ∧ s' = s := by
  cases f with
  | error text =>
    rw [getValue, EarlyExit.throw_error_iff]
    constructor
    · intro h
      exact ⟨text, rfl, h⟩
    · rintro ⟨text', heq, h⟩
      rw [Except.error.inj heq]
      exact h
  | ok v => exact iff_of_false nofun nofun

theorem readOnly_get {σ α : Type} (tag : ℕ) (o : Option α) :
    EarlyExit.ReadOnly (get tag o : EStateM Exception σ α) :=
  ⟨fun _ _ _ h => (get_ok_iff.mp h).2, fun _ _ _ h => (get_error_iff.mp h).2.2⟩

theorem readOnly_getValue {σ α : Type} (tag : ℕ) (f : FieldBase α) :
    EarlyExit.ReadOnly (getValue tag f : EStateM Exception σ α) :=
  ⟨fun _ _ _ h => (getValue_ok_iff.mp h).2, fun _ _ _ h =>
    (getValue_error_iff.mp h).elim (fun _ h => h.2.2)⟩

/-- A program that begins with a fetch leaves behind, when it throws, what the
rest of it may. -/
theorem failsBy_get {σ α β : Type} {P : σ → σ → Prop} (hrefl : ∀ s, P s s) {tag : ℕ}
    {o : Option α} {f : α → EStateM Exception σ β}
    (hf : ∀ a, o = some a → EarlyExit.FailsBy P (f a)) :
    EarlyExit.FailsBy P (get tag o >>= f) :=
  (readOnly_get tag o).failsBy_bind hrefl (fun _ a h => hf a (get_ok_iff.mp h).1)

@[inherit_doc failsBy_get]
theorem failsBy_getValue {σ α β : Type} {P : σ → σ → Prop} (hrefl : ∀ s, P s s) {tag : ℕ}
    {x : FieldBase α} {f : α → EStateM Exception σ β}
    (hf : ∀ a, x = .ok a → EarlyExit.FailsBy P (f a)) :
    EarlyExit.FailsBy P (getValue tag x >>= f) :=
  (readOnly_getValue tag x).failsBy_bind hrefl (fun _ a h => hf a (getValue_ok_iff.mp h).1)

theorem atomic_get {σ α β : Type} {tag : ℕ} {o : Option α} {f : α → EStateM Exception σ β}
    (hf : ∀ a, o = some a → EarlyExit.Atomic (f a)) : EarlyExit.Atomic (get tag o >>= f) :=
  failsBy_get (P := fun s s' => s' = s) (fun _ => rfl) hf

theorem atomic_getValue {σ α β : Type} {tag : ℕ} {x : FieldBase α}
    {f : α → EStateM Exception σ β} (hf : ∀ a, x = .ok a → EarlyExit.Atomic (f a)) :
    EarlyExit.Atomic (getValue tag x >>= f) :=
  failsBy_getValue (P := fun s s' => s' = s) (fun _ => rfl) hf

/-- `FIX::UtcTimeStamp`, as far as a time of day is read off it. -/
structure UtcTimeStamp where
  hour : ℕ
  minute : ℕ
  second : ℕ
  microsecond : ℕ
  deriving DecidableEq

variable (δ : Type)

/-- `MarketDataSnapshotFullRefresh::NoMDEntries`, an entry of a snapshot. -/
structure SnapshotEntry where
  mdEntryType : Option (FieldBase Char) := none
  mdEntryPx : Option (FieldBase δ) := none
  mdEntrySize : Option (FieldBase δ) := none

/-- `FIX44::MarketDataSnapshotFullRefresh`. The count field and the groups
it counts are read separately, so nothing makes them agree. -/
structure MarketDataSnapshotFullRefresh where
  symbol : Option Text
  noMDEntries : Option (FieldBase ℤ)
  groups : List (SnapshotEntry δ)

/-- `MarketDataIncrementalRefresh::NoMDEntries`, an entry of an increment. -/
structure IncrementEntry where
  symbol : Option Text := none
  mdEntryType : Option (FieldBase Char) := none
  mdUpdateAction : Option (FieldBase Char) := none
  mdEntryPx : Option (FieldBase δ) := none
  mdEntrySize : Option (FieldBase δ) := none
  tradeID : Option Text := none
  aggressorSide : Option (FieldBase Char) := none
  transactTime : Option (FieldBase UtcTimeStamp) := none

/-- `FIX44::MarketDataIncrementalRefresh`. -/
structure MarketDataIncrementalRefresh where
  noMDEntries : Option (FieldBase ℤ)
  groups : List (IncrementEntry δ)

variable {δ}

/-- The snapshot a sender makes of entries, whose count field counts them. -/
def MarketDataSnapshotFullRefresh.ofGroups (symbol : Text) (gs : List (SnapshotEntry δ)) :
    MarketDataSnapshotFullRefresh δ :=
  ⟨some symbol, some (.ok gs.length), gs⟩

/-- The increment a sender makes of entries, whose count field counts them. -/
def MarketDataIncrementalRefresh.ofGroups (gs : List (IncrementEntry δ)) :
    MarketDataIncrementalRefresh δ :=
  ⟨some (.ok gs.length), gs⟩

variable (δ)

/-- `binance::MarketMessageVariant`: what travels on the order queue. -/
inductive MarketMessageVariant where
  | snapshot (msg : MarketDataSnapshotFullRefresh δ)
  | increment (msg : MarketDataIncrementalRefresh δ)

variable {δ}

/-- `msg.get(entries)` and `entries.getValue()`: the number of iterations of
an entry loop `for (i = 1; i <= num_entries; i++)`, none when the count is
negative. -/
def numEntries {σ : Type} (noMDEntries : Option (FieldBase ℤ)) : EStateM Exception σ ℕ := do
  let entries ← get Tag.noMDEntries noMDEntries
  let num ← getValue Tag.noMDEntries entries
  return num.toNat

/-- **The entry loop**: `getGroup(i, group)` for `i = 1, …, num`, which
throws `FieldNotFound` past the last group. -/
abbrev forEntries {σ β γ : Type} (body : ℕ → γ → β → EStateM Exception σ β)
    (num : ℕ) (groups : List γ) (acc : β) : EStateM Exception σ β :=
  EarlyExit.forGroups (.fieldNotFound Tag.noMDEntries) body num 1 groups acc

/-- The entries of a message: the groups its count field counts. -/
def counted {γ : Type} (noMDEntries : Option (FieldBase ℤ)) (groups : List γ) : List γ :=
  match noMDEntries with
  | some (.ok num) => groups.take num.toNat
  | _ => []

/-- The count field is readable and counts groups that are there. -/
def CountFits {γ : Type} (noMDEntries : Option (FieldBase ℤ)) (groups : List γ) : Prop :=
  ∃ num : ℤ, noMDEntries = some (.ok num) ∧ num.toNat ≤ groups.length

theorem numEntries_ok_iff {σ : Type} {noMDEntries : Option (FieldBase ℤ)} {n : ℕ}
    {s s' : σ} :
    (numEntries noMDEntries).run s = .ok n s'
      ↔ (∃ num : ℤ, noMDEntries = some (.ok num) ∧ n = num.toNat) ∧ s' = s := by
  unfold numEntries
  simp only [EarlyExit.bind_ok_iff, get_ok_iff, getValue_ok_iff, EarlyExit.pure_ok_iff]
  constructor
  · rintro ⟨entries, s₁, ⟨rfl, rfl⟩, num, s₂, ⟨rfl, rfl⟩, rfl, rfl⟩
    exact ⟨⟨num, rfl, rfl⟩, rfl⟩
  · rintro ⟨⟨num, rfl, rfl⟩, rfl⟩
    exact ⟨_, _, ⟨rfl, rfl⟩, num, _, ⟨rfl, rfl⟩, rfl, rfl⟩

theorem readOnly_numEntries {σ : Type} (noMDEntries : Option (FieldBase ℤ)) :
    EarlyExit.ReadOnly (numEntries noMDEntries : EStateM Exception σ ℕ) :=
  (readOnly_get _ _).bind fun _ =>
    (readOnly_getValue _ _).bind fun _ => EarlyExit.readOnly_pure _

/-- **An entry loop that throws** has not read its count, or processed the
first `k` entries and thrown on the next, as it would if the message
counted one entry more than these. -/
theorem forEntries_error {σ β γ : Type} {body : ℕ → γ → β → EStateM Exception σ β}
    {noMDEntries : Option (FieldBase ℤ)} {groups : List γ} {acc : β} {s s' : σ}
    {e : Exception}
    (h : (numEntries noMDEntries >>= fun num => forEntries body num groups acc).run s
        = .error e s') :
    ((∀ num : ℤ, noMDEntries ≠ some (.ok num)) ∧ s' = s)
      ∨ ∃ (k : ℕ) (acc' : β) (s₁ : σ), (∃ num : ℤ, noMDEntries = some (.ok num) ∧ (k : ℤ) < num)
        ∧ (forEntries body k groups acc).run s = .ok acc' s₁
        ∧ (forEntries body (k + 1) groups acc).run s = .error e s'
        ∧ (s' = s₁ ∨ ∃ g, groups[k]? = some g ∧ (body (1 + k) g acc').run s₁ = .error e s') := by
  rcases EarlyExit.bind_error_iff.mp h with hnum | ⟨n, s₁, hnum, hloop⟩
  · refine Or.inl ⟨fun num hcount => ?_, (readOnly_numEntries _).2 _ _ _ hnum⟩
    rw [hcount] at hnum
    cases hnum
  · obtain ⟨⟨num, hcount, rfl⟩, rfl⟩ := numEntries_ok_iff.mp hnum
    obtain ⟨k, acc', s₂, hk, hok, hmore, hfail⟩ := EarlyExit.forGroups_error hloop
    exact Or.inr ⟨k, acc', s₂, ⟨num, hcount, Int.lt_toNat.mp hk⟩, hok, hmore, hfail⟩

/-- **An entry loop that ends normally visited the entries of the message**,
all of which are there. -/
theorem forEntries_ok {σ β γ : Type} {body : ℕ → γ → β → EStateM Exception σ β}
    {noMDEntries : Option (FieldBase ℤ)} {groups : List γ} {acc acc' : β} {s s' : σ} :
    ((numEntries noMDEntries >>= fun num => forEntries body num groups acc).run s
        = .ok acc' s')
      ↔ CountFits noMDEntries groups
        ∧ (EarlyExit.forEach body 1 (counted noMDEntries groups) acc).run s
          = .ok acc' s' := by
  simp only [EarlyExit.bind_ok_iff, numEntries_ok_iff, EarlyExit.forGroups_ok_iff]
  constructor
  · rintro ⟨n, s₁, ⟨⟨num, rfl, rfl⟩, rfl⟩, hn, h⟩
    exact ⟨⟨num, rfl, hn⟩, h⟩
  · rintro ⟨⟨num, rfl, hn⟩, h⟩
    exact ⟨_, _, ⟨⟨num, rfl, rfl⟩, rfl⟩, hn, h⟩

end Fix
