import Trader.Replica
import Trader.Screen

set_option autoImplicit false

/-!
# The exchange's book on the screen

The exchange keeps a book of its own, in decimals, and publishes it: a
snapshot says what all of its levels are, and an increment says of every
level that has changed what is there now (`Publishes`). Of a subscription to
one level per side an increment says more: a `CHANGE` is all there is on its
side now. The messages may come with entries of other instruments in between,
say things twice and in any order, and start over with a snapshot at any
time, as they do on a new connection.

The book of the program is a copy of the exchange's (`level_applyMessages`),
and the screen shows it: whatever the threads of the program do, a drawing of
the book shows the one the exchange had after some message, best prices
first, as long as its numbers come through. Where one side has fewer levels
than the other it shows the sentinel (`exchange_on_screen`).
-/

namespace Ui

open Fix EarlyExit Binance Transition Decimal Sentinel Utils.Double Core Core.OrderBook Binary64

/-! ## What the exchange says -/

/-- **The exchange's book**: the size at each price of a side, in decimals. -/
abbrev Quotes : Type := BookSide → ℚ → Option ℚ

/-- The same book in ticks. -/
def Quotes.inTicks (E : Quotes) (side : BookSide) (px : UInt64) : Option UInt64 :=
  (E side (px.toNat / 100)).map (sizeTicks exactTicks)

/-- An entry of a snapshot says that there is a level. -/
def SnapshotSays (side : BookSide) (q s : ℚ) (g : SnapshotEntry ℚ) : Prop :=
  g.mdEntryType = some (.ok side.entryType) ∧ g.mdEntryPx = some (.ok q)
    ∧ g.mdEntrySize = some (.ok s)

/-- **What an entry of an increment says** is at a price of a side: the size it
sets there, nothing when it deletes the level, and nothing at every other
price when it replaces the side. -/
inductive IncrementSays (clear : Bool) (side : BookSide) (g : IncrementEntry ℚ) :
    ℚ → Option ℚ → Prop
  | delete {q : ℚ} : g.mdEntryType = some (.ok side.entryType) → g.mdEntryPx = some (.ok q) →
    g.mdUpdateAction = some (.ok mdUpdateActionDelete) → IncrementSays clear side g q none
  | set {q s : ℚ} {act : Char} : g.mdEntryType = some (.ok side.entryType) →
    g.mdEntryPx = some (.ok q) → g.mdUpdateAction = some (.ok act) → SetsLevel act →
    g.mdEntrySize = some (.ok s) → IncrementSays clear side g q (some s)
  | only {q q' : ℚ} : clear = true → g.mdEntryType = some (.ok side.entryType) →
    g.mdEntryPx = some (.ok q) → g.mdUpdateAction = some (.ok mdUpdateActionChange) → q' ≠ q →
    IncrementSays clear side g q' none

/-- **A snapshot that publishes a book** says of it what is there, and all of
it. -/
structure SnapshotPublishes (E : Quotes) (msg : MarketDataSnapshotFullRefresh ℚ) : Prop where
  btc : isBtc msg.symbol = true
  readable : SnapshotProcessable msg
  true_of : ∀ g ∈ counted msg.noMDEntries msg.groups, ∀ side q s, SnapshotSays side q s g →
    E side q = some s
  complete : ∀ side q, E side q ≠ none →
    ∃ g ∈ counted msg.noMDEntries msg.groups, ∃ s, SnapshotSays side q s g

/-- **An increment that publishes a change** of a book says of it what is
there, and so of every price at which it has changed. -/
structure IncrementPublishes (clear : Bool) (E E' : Quotes)
    (msg : MarketDataIncrementalRefresh ℚ) : Prop where
  readable : IncrementProcessable msg
  true_of : ∀ g ∈ btcEntries (entriesOf msg), ∀ side q o, IncrementSays clear side g q o →
    E' side q = o
  complete : ∀ side q, E side q ≠ E' side q →
    ∃ g ∈ btcEntries (entriesOf msg), ∃ o, IncrementSays clear side g q o

/-- **What the exchange publishes** when its book becomes another one. A
snapshot of another instrument says nothing of it. -/
def Publishes (clear : Bool) (E E' : Quotes) : MarketMessageVariant ℚ → Prop
  | .snapshot msg => SnapshotPublishes E' msg
    ∨ (SnapshotProcessable msg ∧ isBtc msg.symbol = false ∧ E' = E)
  | .increment msg => IncrementPublishes clear E E' msg

/-! ## Ticks and decimals -/

theorem toNat_exactTicks_price (px : UInt64) : priceTicks exactTicks (px.toNat / 100) = px := by
  have h := toNat_exactTicks px.toNat_lt (Binance.Config.getPriceTicksPerUnit .btcusdt)
    (by decide)
  exact UInt64.toNat_inj.mp h

/-- A price that comes through is at its ticks, -/
theorem inTicks_priceTicks (E : Quotes) (side : BookSide) {q : ℚ} (h : PriceFits q) :
    E.inTicks side (priceTicks exactTicks q) = (E side q).map (sizeTicks exactTicks) := by
  rw [Quotes.inTicks, h.exact.2.1]

/-- and at no others. -/
theorem ne_of_ne_priceTicks {q : ℚ} {px : UInt64} (h : px ≠ priceTicks exactTicks q) :
    (px.toNat / 100 : ℚ) ≠ q := by
  rintro rfl
  exact h (toNat_exactTicks_price px).symm

/-! ## Entries as operations -/

section Entries

variable {E : Quotes} {side : BookSide} {clear : Bool}

/-- **An entry of a snapshot** tells the truth in ticks, -/
theorem truthful_snapshotOps {g : SnapshotEntry ℚ}
    (htrue : ∀ q s, SnapshotSays side q s g → E side q = some s)
    (hpx : ∀ q, g.mdEntryPx = some (.ok q) → PriceFits q) :
    KeyOp.Truthful (E.inTicks side) (snapshotOps exactTicks side g) := by
  unfold snapshotOps
  split
  · next tp q s htp hq hs =>
    split_ifs with hside
    · refine KeyOp.truthful_set ?_
      rw [inTicks_priceTicks E side (hpx q hq), htrue q s ⟨hside ▸ htp, hq, hs⟩]
      rfl
    · exact KeyOp.truthful_nil
  · exact KeyOp.truthful_nil

/-- and settles the level it says is there. -/
theorem settles_snapshotOps {g : SnapshotEntry ℚ} {q s : ℚ} (h : SnapshotSays side q s g)
    (htrue : E side q = some s) (hq : PriceFits q) :
    KeyOp.Settles (E.inTicks side) (snapshotOps exactTicks side g) (priceTicks exactTicks q) := by
  obtain ⟨htp, hpx, hsz⟩ := h
  unfold snapshotOps
  simp only [htp, hpx, hsz, if_true]
  refine KeyOp.settles_set ?_
  rw [inTicks_priceTicks E side hq, htrue]
  rfl

/-- **What an entry of an increment says and what is done with it**: nothing of
either, or one level that it deletes or sets, or the one it replaces its side
with. -/
inductive SaysAndDoes (clear : Bool) (side : BookSide) (g : IncrementEntry ℚ) : Prop
  | nothing : incrementOps exactTicks clear side g = [] →
    (∀ q o, ¬ IncrementSays clear side g q o) → SaysAndDoes clear side g
  | delete {q : ℚ} : g.mdEntryPx = some (.ok q) →
    incrementOps exactTicks clear side g = [.remove (priceTicks exactTicks q)] →
    IncrementSays clear side g q none → (∀ q' o, IncrementSays clear side g q' o → q' = q) →
    SaysAndDoes clear side g
  | set {q s : ℚ} : g.mdEntryPx = some (.ok q) →
    incrementOps exactTicks clear side g
      = [.set (priceTicks exactTicks q) (sizeTicks exactTicks s)] →
    IncrementSays clear side g q (some s) →
    (∀ q' o, IncrementSays clear side g q' o → q' = q) → SaysAndDoes clear side g
  | only {q s : ℚ} : g.mdEntryPx = some (.ok q) →
    incrementOps exactTicks clear side g
      = [.clear, .set (priceTicks exactTicks q) (sizeTicks exactTicks s)] →
    IncrementSays clear side g q (some s) → (∀ q', q' ≠ q → IncrementSays clear side g q' none) →
    SaysAndDoes clear side g

/-- An entry that replaces nothing says something of its own price at most. -/
theorem eq_of_incrementSays {g : IncrementEntry ℚ} {act : Char} {q q' : ℚ} {o : Option ℚ}
    (hact : g.mdUpdateAction = some (.ok act)) (hpx : g.mdEntryPx = some (.ok q))
    (honly : ¬ (clear = true ∧ act = mdUpdateActionChange))
    (h : IncrementSays clear side g q' o) : q' = q := by
  cases h with
  | delete _ hq _ => simpa [hpx] using hq.symm
  | set _ hq _ _ _ => simpa [hpx] using hq.symm
  | only hclear _ _ hact' _ =>
    rw [hact] at hact'
    exact absurd ⟨hclear, Except.ok.inj (Option.some.inj hact')⟩ honly

theorem saysAndDoes_of_readable {g : IncrementEntry ℚ} (h : IncrementReadable g) :
    SaysAndDoes clear side g := by
  obtain ⟨tp, action, htp, haction, hlevel⟩ := h
  by_cases hside : tp = side.entryType
  · subst hside
    have hsides : side.entryType = mdEntryTypeBid ∨ side.entryType = mdEntryTypeOffer := by
      cases side <;> simp [BookSide.entryType]
    obtain ⟨⟨q, hq⟩, act, rfl, hsize⟩ := hlevel hsides
    have hops : incrementOps exactTicks clear side g = actionOps exactTicks clear g act q := by
      simp only [incrementOps, htp, haction, hq, if_true]
    by_cases hdelete : act = mdUpdateActionDelete
    · subst hdelete
      exact .delete hq (by simp [hops, actionOps]) (.delete htp hq haction)
        (fun q' o => eq_of_incrementSays haction hq (fun h => absurd h.2 (by decide)))
    by_cases hset : SetsLevel act
    · obtain ⟨s, hs⟩ := hsize hset
      have hsaid : IncrementSays clear side g q (some s) := .set htp hq haction hset hs
      by_cases honly : clear = true ∧ act = mdUpdateActionChange
      · obtain ⟨rfl, rfl⟩ := honly
        exact .only hq (by simp [hops, actionOps, setOps, hs, hdelete]) hsaid
          (fun q' hq' => .only rfl htp hq haction hq')
      · refine .set hq ?_ hsaid (fun q' o => eq_of_incrementSays haction hq honly)
        rcases hset with rfl | rfl
        · have hclear : clear = false := by simpa using honly
          rw [hops, actionOps, if_neg hdelete, if_pos rfl, hclear, setOps, hs]
          rfl
        · rw [hops, actionOps, if_neg hdelete, if_neg (by decide), if_pos rfl, setOps, hs]
    · -- an action that is none of the three
      obtain ⟨hchange, hnew⟩ := not_or.mp hset
      refine .nothing (by simp [hops, actionOps, hdelete, hchange, hnew]) (fun q' o hsaid => ?_)
      cases hsaid with
      | delete _ _ hact => exact hdelete (by simpa [haction] using hact)
      | set _ _ hact hsets _ =>
        rw [haction] at hact
        obtain rfl := Except.ok.inj (Option.some.inj hact)
        exact hset hsets
      | only _ _ _ hact _ => exact hchange (by simpa [haction] using hact)
  · -- an entry of the other side, or of neither
    have hne : g.mdEntryType ≠ some (.ok side.entryType) := by
      rw [htp]
      intro heq
      exact hside (Except.ok.inj (Option.some.inj heq))
    refine .nothing ?_ (fun q o hsaid => ?_)
    · unfold incrementOps
      split
      · next tp' act q htp' _ _ =>
        refine if_neg (fun heq => hne ?_)
        rw [htp', heq]
      · rfl
    · cases hsaid with
      | delete htp' _ _ => exact hne htp'
      | set htp' _ _ _ _ => exact hne htp'
      | only _ htp' _ _ _ => exact hne htp'

variable {g : IncrementEntry ℚ}

/-- What replaces a side settles all of it. -/
theorem settles_only {q s : ℚ} (hq : PriceFits q) (hE : E side q = some s)
    (hnone : ∀ q', q' ≠ q → E side q' = none) (px : UInt64) :
    KeyOp.Settles (E.inTicks side)
      [.clear, .set (priceTicks exactTicks q) (sizeTicks exactTicks s)] px := by
  refine KeyOp.settles_reset ?_ (fun px' hpx' => ?_) px
  · rw [inTicks_priceTicks E side hq, hE]
    rfl
  · rw [Quotes.inTicks, hnone _ (ne_of_ne_priceTicks hpx')]
    rfl

/-- **An entry of an increment** tells the truth in ticks, -/
theorem truthful_incrementOps (hread : IncrementReadable g)
    (htrue : ∀ q o, IncrementSays clear side g q o → E side q = o)
    (hfit : ∀ q, g.mdEntryPx = some (.ok q) → PriceFits q) :
    KeyOp.Truthful (E.inTicks side) (incrementOps exactTicks clear side g) := by
  have hticks : ∀ {q o}, g.mdEntryPx = some (.ok q) → IncrementSays clear side g q o →
      E.inTicks side (priceTicks exactTicks q) = o.map (sizeTicks exactTicks) := by
    intro q o hq hsaid
    rw [inTicks_priceTicks E side (hfit q hq), htrue q o hsaid]
  have hdoes : SaysAndDoes clear side g := saysAndDoes_of_readable hread
  cases hdoes with
  | nothing hops _ =>
    rw [hops]
    exact KeyOp.truthful_nil
  | delete hq hops hsaid _ =>
    rw [hops]
    exact KeyOp.truthful_remove (hticks hq hsaid)
  | set hq hops hsaid _ =>
    rw [hops]
    exact KeyOp.truthful_set (hticks hq hsaid)
  | only hq hops hsaid hothers =>
    rw [hops]
    exact KeyOp.truthful_of_settles (settles_only (hfit _ hq) (htrue _ _ hsaid)
      (fun q' hq' => htrue q' none (hothers q' hq')))

/-- and settles what it says something of. -/
theorem settles_incrementOps (hread : IncrementReadable g)
    (htrue : ∀ q o, IncrementSays clear side g q o → E side q = o)
    (hfit : ∀ q, g.mdEntryPx = some (.ok q) → PriceFits q) {px : UInt64} {o : Option ℚ}
    (hsaid : IncrementSays clear side g (px.toNat / 100) o) :
    KeyOp.Settles (E.inTicks side) (incrementOps exactTicks clear side g) px := by
  have hpx : ∀ {q}, (px.toNat / 100 : ℚ) = q → priceTicks exactTicks q = px := by
    rintro q rfl
    exact toNat_exactTicks_price px
  have hticks : ∀ {q o}, g.mdEntryPx = some (.ok q) → IncrementSays clear side g q o →
      E.inTicks side (priceTicks exactTicks q) = o.map (sizeTicks exactTicks) := by
    intro q o hq hsaid
    rw [inTicks_priceTicks E side (hfit q hq), htrue q o hsaid]
  have hdoes : SaysAndDoes clear side g := saysAndDoes_of_readable hread
  cases hdoes with
  | nothing _ hnone => exact absurd hsaid (hnone _ _)
  | delete hq hops hown hsame =>
    rw [hops, ← hpx (hsame _ _ hsaid)]
    exact KeyOp.settles_remove (hticks hq hown)
  | set hq hops hown hsame =>
    rw [hops, ← hpx (hsame _ _ hsaid)]
    exact KeyOp.settles_set (hticks hq hown)
  | only hq hops hown hothers =>
    rw [hops]
    exact settles_only (hfit _ hq) (htrue _ _ hown)
      (fun q' hq' => htrue q' none (hothers q' hq')) px

end Entries

/-! ## The copy -/

section Copy

variable {E E' : Quotes} {clear : Bool}

/-- **A snapshot leads from no book to the exchange's**, -/
theorem updates_snapshot {msg : MarketDataSnapshotFullRefresh ℚ}
    (h : SnapshotPublishes E msg) (hfit : BookFits clear (.snapshot msg)) (side : BookSide) :
    KeyOp.Updates (snapshotOps exactTicks side) (counted msg.noMDEntries msg.groups)
      (fun _ => none) (E.inTicks side) := by
  rw [BookFits, bookEntries, if_pos h.btc] at hfit
  have hpx : ∀ g ∈ counted msg.noMDEntries msg.groups, ∀ q, g.mdEntryPx = some (.ok q) →
      PriceFits q := fun g hg q hq => (hfit _ (List.mem_map_of_mem hg)).1 q hq
  refine ⟨fun g hg => truthful_snapshotOps (h.true_of g hg side) (hpx g hg), fun px hne => ?_⟩
  have hlevel : E side (px.toNat / 100) ≠ none := by
    intro hnone
    exact hne (by simp [Quotes.inTicks, hnone])
  obtain ⟨g, hg, s, hsaid⟩ := h.complete side _ hlevel
  have hsettles := settles_snapshotOps hsaid (h.true_of g hg side _ s hsaid)
    (hpx g hg _ hsaid.2.1)
  rw [toNat_exactTicks_price] at hsettles
  exact ⟨g, hg, hsettles⟩

/-- and an increment from the book it was to the one it is. -/
theorem updates_increment {msg : MarketDataIncrementalRefresh ℚ}
    (h : IncrementPublishes clear E E' msg) (hfit : BookFits clear (.increment msg))
    (side : BookSide) :
    KeyOp.Updates (incrementOps exactTicks clear side) (btcEntries (entriesOf msg))
      (E.inTicks side) (E'.inTicks side) := by
  have hpx : ∀ g ∈ btcEntries (entriesOf msg), ∀ q, g.mdEntryPx = some (.ok q) → PriceFits q :=
    fun g hg q hq => (hfit (.increment clear g) (List.mem_map_of_mem hg)).1 q hq
  have hread : ∀ g ∈ btcEntries (entriesOf msg), IncrementReadable g := by
    intro g hg
    obtain ⟨p, hp, rfl⟩ := List.mem_map.mp hg
    obtain ⟨hp, hbtc⟩ := List.mem_filter.mp hp
    exact (h.readable.2 p hp).2 hbtc
  refine ⟨fun g hg => truthful_incrementOps (hread g hg) (h.true_of g hg side) (hpx g hg),
    fun px hne => ?_⟩
  have hlevel : E side (px.toNat / 100) ≠ E' side (px.toNat / 100) := by
    intro heq
    exact hne (by simp [Quotes.inTicks, heq])
  obtain ⟨g, hg, o, hsaid⟩ := h.complete side _ hlevel
  exact ⟨g, hg, settles_incrementOps (hread g hg) (h.true_of g hg side) (hpx g hg) hsaid⟩

theorem Publishes.processable {msg : MarketMessageVariant ℚ} (h : Publishes clear E E' msg) :
    Processable msg := by
  cases msg with
  | snapshot msg => exact h.elim SnapshotPublishes.readable (·.1)
  | increment msg => exact h.readable

/-- **A message that is published is copied**: it is applied without an
exception, and makes the exchange's book of the copy. -/
theorem level_applyMessage {msg : MarketMessageVariant ℚ} (h : Publishes clear E E' msg)
    (hfit : BookFits clear msg) {b : Core.OrderBook} (hb : ∀ side, b.level side = E.inTicks side) :
    ∃ b', (applyMessage exactTicks clear msg).run b = .ok () b'
      ∧ ∀ side, b'.level side = E'.inTicks side := by
  refine ⟨_, (applyMessage_ok_iff exactTicks).mpr ⟨h.processable, rfl⟩, fun side => ?_⟩
  rw [level_runOps, hb side]
  cases msg with
  | snapshot msg =>
    show KeyOp.run (snapshotMessageOps exactTicks side msg) _ = _
    rcases h with hpub | ⟨-, hother, rfl⟩
    · rw [snapshotMessageOps, if_pos hpub.btc]
      exact (updates_snapshot hpub hfit side).run_eq
    · simp [snapshotMessageOps, hother]
  | increment msg => exact (updates_increment h hfit side).run_eq

/-- No level. -/
def Quotes.none : Quotes := fun _ _ => Option.none

/-- **A history of the exchange's book** and what is published of it. -/
structure History (clear : Bool) (E : ℕ → Quotes) (msgs : List (MarketMessageVariant ℚ)) :
    Prop where
  start : E 0 = .none
  publishes : ∀ k msg, msgs[k]? = some msg → Publishes clear (E k) (E (k + 1)) msg
  fits : ∀ msg ∈ msgs, BookFits clear msg

/-- What is published first is published of the same history. -/
theorem History.take {E : ℕ → Quotes} {msgs : List (MarketMessageVariant ℚ)}
    (h : History clear E msgs) (n : ℕ) : History clear E (msgs.take n) := by
  refine ⟨h.start, fun k msg hget => h.publishes k msg ?_,
    fun msg hmsg => h.fits msg (List.mem_of_mem_take hmsg)⟩
  rw [List.getElem?_take] at hget
  split_ifs at hget
  exact hget

/-- **The book is a copy of the exchange's**, after any of the messages. -/
theorem History.level_applyMessages {E : ℕ → Quotes} {msgs : List (MarketMessageVariant ℚ)}
    (h : History clear E msgs) {k : ℕ} (hk : k ≤ msgs.length) :
    ∃ b, (applyMessages exactTicks clear (msgs.take k)).run .empty = .ok () b
      ∧ ∀ side, b.level side = (E k).inTicks side := by
  induction k with
  | zero =>
    refine ⟨.empty, rfl, fun side => ?_⟩
    rw [h.start]
    funext px
    cases side <;> exact Std.ExtTreeMap.getElem?_empty
  | succ k ih =>
    obtain ⟨b, hrun, hb⟩ := ih (Nat.le_of_succ_le hk)
    have hget : msgs[k]? = some msgs[k] := List.getElem?_eq_getElem hk
    obtain ⟨b', hmsg, hb'⟩ := level_applyMessage (h.publishes k _ hget)
      (h.fits _ (List.getElem_mem hk)) hb
    refine ⟨b', ?_, hb'⟩
    rw [List.take_add_one, hget]
    exact applyMessages_concat exactTicks hrun hmsg

/-! ## Levels that come through -/

/-- Every number of a book comes through. -/
def Quotes.Fits (E : Quotes) : Prop :=
  ∀ side q s, E side q = some s → PriceFits q ∧ SizeFits s

/-- What is published of numbers that come through is a book of such. -/
theorem Publishes.quotesFit {msg : MarketMessageVariant ℚ} (h : Publishes clear E E' msg)
    (hfit : BookFits clear msg) (hE : E.Fits) : E'.Fits := by
  intro side q s hlevel
  cases msg with
  | snapshot msg =>
    rcases h with hpub | ⟨-, -, rfl⟩
    · rw [BookFits, bookEntries, if_pos hpub.btc] at hfit
      obtain ⟨g, hg, s', hsaid⟩ := hpub.complete side q (by simp [hlevel])
      obtain rfl := Option.some.inj (hlevel.symm.trans (hpub.true_of g hg side q s' hsaid))
      have hnumbers := hfit _ (List.mem_map_of_mem hg)
      exact ⟨hnumbers.1 q hsaid.2.1, hnumbers.2 s hsaid.2.2⟩
    · exact hE side q s hlevel
  | increment msg =>
    by_cases hsame : E side q = E' side q
    · exact hE side q s (hsame.trans hlevel)
    · obtain ⟨g, hg, o, hsaid⟩ := h.complete side q hsame
      obtain rfl := hlevel.symm.trans (h.true_of g hg side q o hsaid)
      have hnumbers := hfit (.increment clear g) (List.mem_map_of_mem hg)
      cases hsaid with
      | set _ hpx _ _ hsz => exact ⟨hnumbers.1 q hpx, hnumbers.2 s hsz⟩

theorem History.quotesFit {E : ℕ → Quotes} {msgs : List (MarketMessageVariant ℚ)}
    (h : History clear E msgs) {k : ℕ} (hk : k ≤ msgs.length) : (E k).Fits := by
  induction k with
  | zero =>
    rw [h.start]
    exact nofun
  | succ k ih =>
    have hget : msgs[k]? = some msgs[k] := List.getElem?_eq_getElem hk
    exact (h.publishes k _ hget).quotesFit (h.fits _ (List.getElem_mem hk))
      (ih (Nat.le_of_succ_le hk))

end Copy

/-! ## The screen -/

/-- A price in decimals is better than another. -/
def BetterPrice : BookSide → ℚ → ℚ → Prop
  | .bid => fun q q' => q' < q
  | .offer => fun q q' => q < q'

/-- **A table shows a book of the exchange**: on each side its levels stand best
first, one in each row, in as many rows as the longer side needs. In the rows
past the last level of the other side its cells show what the sentinel
makes. -/
structure ShowsQuotes (E : Quotes) (levels : BookSide → List (ℚ × ℚ))
    (table : List OrderBookBox.Row) : Prop where
  mem_iff : ∀ side q s, (q, s) ∈ levels side ↔ E side q = some s
  sorted : ∀ side, (levels side).Pairwise (fun e e' => BetterPrice side e.1 e'.1)
  length : table.length = max (levels .bid).length (levels .offer).length
  row : ∀ (side : BookSide) (i : ℕ) (q s : ℚ), (levels side)[i]? = some (q, s) →
    ∃ r, table[i]? = some r ∧ value (plain (r.px side)) = some q ∧ Denotes (r.sz side) s
  past : ∀ (side : BookSide) (i : ℕ) (r : OrderBookBox.Row), table[i]? = some r →
    (levels side).length ≤ i → PastLevels side r

/-- The price and the size of a level in decimals. -/
def decimals (e : UInt64 × UInt64) : ℚ × ℚ := (e.1.toNat / 100, e.2.toNat / 10 ^ 5)

/-- The levels of a copy are those of the exchange's book. -/
theorem mem_decimals_iff {E : Quotes} {b : Core.OrderBook} {side : BookSide}
    (hb : b.level side = E.inTicks side) (hfit : E.Fits) (q s : ℚ) :
    (q, s) ∈ (b.levels side).map decimals ↔ E side q = some s := by
  constructor
  · intro hmem
    obtain ⟨⟨px, sz⟩, hlevel, heq⟩ := List.mem_map.mp hmem
    obtain ⟨rfl, rfl⟩ := Prod.mk.inj heq
    have hget := ((bestFirst_levels b side).mem_iff px sz).mp hlevel
    rw [hb, Quotes.inTicks] at hget
    obtain ⟨s, hs, rfl⟩ := Option.map_eq_some_iff.mp hget
    rw [hs, (hfit side _ s hs).2.exact.2.1]
  · intro hlevel
    obtain ⟨hq, hs⟩ := hfit side q s hlevel
    have hget : b.level side (priceTicks exactTicks q) = some (sizeTicks exactTicks s) := by
      rw [hb, inTicks_priceTicks E side hq, hlevel]
      rfl
    refine List.mem_map.mpr ⟨_, ((bestFirst_levels b side).mem_iff _ _).mpr hget, ?_⟩
    rw [decimals, hq.exact.2.1, hs.exact.2.1]

/-- A table of the copy shows the exchange's book. -/
theorem showsQuotes_of_showsBook {E : Quotes} {b : Core.OrderBook}
    {table : List OrderBookBox.Row} (h : ShowsBook b table)
    (hb : ∀ side, b.level side = E.inTicks side) (hfit : E.Fits) :
    ShowsQuotes E (fun side => (b.levels side).map decimals) table := by
  refine ⟨fun side => mem_decimals_iff (hb side) hfit, fun side => ?_, ?_, fun side i q s he => ?_,
    fun side i r hr hi => h.past side i r hr ?_⟩
  · refine List.pairwise_map.mpr ((bestFirst_levels b side).sorted.imp (fun {e e'} hbetter => ?_))
    have hlt : ∀ {px px' : UInt64}, px < px' → (px.toNat / 100 : ℚ) < px'.toNat / 100 := by
      intro px px' hpx
      have hnat : (px.toNat : ℚ) < px'.toNat := by exact_mod_cast UInt64.lt_iff_toNat_lt.mp hpx
      linarith
    cases side with
    | bid => exact hlt hbetter
    | offer => exact hlt hbetter
  · rw [h.length, List.length_map, List.length_map, length_levels, length_levels]
  · rw [List.getElem?_map] at he
    obtain ⟨⟨px, sz⟩, hget, heq⟩ := Option.map_eq_some_iff.mp he
    obtain ⟨rfl, rfl⟩ := Prod.mk.inj heq
    exact h.row side i px sz hget
  · rwa [List.length_map, length_levels] at hi

section Sample

/-- A book of one level, of 1.2 at 1,234,567.87. -/
def quotedLevel (side : BookSide) : Quotes :=
  fun side' q => if side' = side ∧ q = 123456787 / 100 then some (120000 / 100000) else none

/-- The bid of the quoted snapshot is deleted, -/
def quotedDelete : IncrementEntry ℚ :=
  { symbol := some "BTCUSDT".toList, mdEntryType := some (.ok '0'),
    mdUpdateAction := some (.ok '2'), mdEntryPx := some (.ok (123456787 / 100)) }

/-- and an offer like it is new. -/
def quotedOffer : IncrementEntry ℚ :=
  { mdEntryType := some (.ok '1'), mdUpdateAction := some (.ok '0'),
    mdEntryPx := some (.ok (123456787 / 100)), mdEntrySize := some (.ok (120000 / 100000)) }

/-- The two in a message. -/
def quotedMove : MarketDataIncrementalRefresh ℚ := .ofGroups [quotedDelete, quotedOffer]

/-- What the exchange publishes. -/
def quotedMessages : List (MarketMessageVariant ℚ) :=
  [.snapshot quotedSnapshot, .increment quotedMove]

/-- Its book before, between and after the two messages. -/
def quotedHistory : ℕ → Quotes
  | 0 => .none
  | 1 => quotedLevel .bid
  | _ => quotedLevel .offer

theorem eq_of_field {α : Type} {a b : α}
    (h : (some (.ok a) : Option (FieldBase α)) = some (.ok b)) : a = b :=
  Except.ok.inj (Option.some.inj h)

theorem eq_bid {side : BookSide} (h : '0' = side.entryType) : side = .bid := by
  cases side with
  | bid => rfl
  | offer => exact absurd h (by decide)

theorem eq_offer {side : BookSide} (h : '1' = side.entryType) : side = .offer := by
  cases side with
  | bid => exact absurd h (by decide)
  | offer => rfl

theorem not_setsLevel_delete : ¬ SetsLevel mdUpdateActionDelete :=
  fun h => h.elim (by decide) (by decide)

theorem accepted_btcusdt : Accepted (some "BTCUSDT".toList) := ⟨.btcusdt, .btcusdt, by rfl, rfl⟩

theorem quotedSnapshot_publishes : SnapshotPublishes (quotedLevel .bid) quotedSnapshot := by
  refine ⟨by decide, ⟨accepted_btcusdt, fun _ => ⟨⟨1, rfl, by decide⟩, ?_⟩⟩, ?_, ?_⟩
  · intro g hg
    obtain rfl := List.mem_singleton.mp hg
    exact ⟨⟨_, rfl⟩, ⟨_, rfl⟩, _, rfl⟩
  · rintro g hg side q s ⟨htp, hpx, hsz⟩
    obtain rfl := List.mem_singleton.mp hg
    rw [eq_bid (eq_of_field htp), ← eq_of_field hpx, ← eq_of_field hsz]
    exact if_pos ⟨rfl, rfl⟩
  · intro side q hne
    obtain ⟨rfl, rfl⟩ := (ite_ne_right_iff.mp hne).1
    exact ⟨_, List.mem_singleton_self _, _, rfl, rfl, rfl⟩

theorem readable_quotedDelete : IncrementReadable quotedDelete :=
  ⟨'0', .ok '2', rfl, rfl,
    fun _ => ⟨⟨_, rfl⟩, '2', rfl, fun h => absurd h not_setsLevel_delete⟩⟩

theorem readable_quotedOffer : IncrementReadable quotedOffer :=
  ⟨'1', .ok '0', rfl, rfl, fun _ => ⟨⟨_, rfl⟩, '0', rfl, fun _ => ⟨_, rfl⟩⟩⟩

theorem btcEntries_quotedMove :
    btcEntries (entriesOf quotedMove) = [quotedDelete, quotedOffer] := by rfl

theorem quotedMove_publishes :
    IncrementPublishes false (quotedLevel .bid) (quotedLevel .offer) quotedMove := by
  have hentries : entriesOf quotedMove
      = [(some "BTCUSDT".toList, quotedDelete), (some "BTCUSDT".toList, quotedOffer)] := by rfl
  refine ⟨⟨⟨2, rfl, by decide⟩, ?_⟩, ?_, ?_⟩
  · rw [hentries]
    exact List.forall_mem_cons.mpr ⟨⟨accepted_btcusdt, fun _ => readable_quotedDelete⟩,
      List.forall_mem_singleton.mpr ⟨accepted_btcusdt, fun _ => readable_quotedOffer⟩⟩
  · rw [btcEntries_quotedMove]
    refine List.forall_mem_cons.mpr ⟨fun side q o hsaid => ?_,
      List.forall_mem_singleton.mpr (fun side q o hsaid => ?_)⟩
    · cases hsaid with
      | delete htp _ _ =>
        rw [eq_bid (eq_of_field htp)]
        exact if_neg (fun h => nomatch h.1)
      | set _ _ hact hsets _ =>
        rw [← eq_of_field hact] at hsets
        exact absurd hsets not_setsLevel_delete
      | only hclear _ _ _ _ => cases hclear
    · cases hsaid with
      | delete _ _ hact => exact absurd (eq_of_field hact) (by decide)
      | set htp hpx _ _ hsz =>
        rw [eq_offer (eq_of_field htp), ← eq_of_field hpx, ← eq_of_field hsz]
        exact if_pos ⟨rfl, rfl⟩
      | only hclear _ _ _ _ => cases hclear
  · rw [btcEntries_quotedMove]
    intro side q hne
    by_cases hq : q = 123456787 / 100
    · subst hq
      cases side with
      | bid => exact ⟨_, List.mem_cons_self, _, .delete rfl rfl rfl⟩
      | offer =>
        exact ⟨_, List.mem_cons_of_mem _ (List.mem_singleton_self _), _,
          .set rfl rfl rfl (Or.inr rfl) rfl⟩
    · simp [quotedLevel, hq] at hne

theorem quotedMessages_history : History false quotedHistory quotedMessages := by
  have hpx : ∀ {q : ℚ}, some (.ok (123456787 / 100)) = (some (.ok q) : Option (FieldBase ℚ)) →
      PriceFits q := by
    intro q hq
    rw [← eq_of_field hq]
    exact priceFits_quoted
  have hsz : ∀ {q : ℚ}, some (.ok (120000 / 100000)) = (some (.ok q) : Option (FieldBase ℚ)) →
      SizeFits q := by
    intro q hq
    rw [← eq_of_field hq]
    exact sizeFits_quoted
  refine ⟨rfl, fun k msg hget => ?_, ?_⟩
  · rcases k with _ | _ | k
    · obtain rfl := Option.some.inj hget
      exact Or.inl quotedSnapshot_publishes
    · obtain rfl := Option.some.inj hget
      exact quotedMove_publishes
    · cases hget
  · refine List.forall_mem_cons.mpr ⟨fun e he => ?_,
      List.forall_mem_singleton.mpr (fun e he => ?_)⟩
    · obtain rfl := List.mem_singleton.mp he
      exact ⟨fun q hq => hpx hq, fun q hq => hsz hq⟩
    · rw [bookEntries, btcEntries_quotedMove] at he
      rcases List.mem_cons.mp he with rfl | he
      · refine ⟨fun q hq => hpx hq, fun q hq => ?_⟩
        cases hq
      · obtain rfl := List.mem_singleton.mp he
        exact ⟨fun q hq => hpx hq, fun q hq => hsz hq⟩

/-- The copy after both messages. -/
def movedBook : Core.OrderBook :=
  ⟨quotedBook.bidMap.erase (ticksOfDecimal (123456787 / 100) 100),
    (∅ : BtreeMap less).insert (ticksOfDecimal (123456787 / 100) 100)
      (ticksOfDecimal (120000 / 100000) 100000)⟩

/-- The two, read as doubles, each on a connection of its own, -/
def quotedConnections : List (ℕ × MarketMessageVariant Binary64) :=
  [(0, (MarketMessageVariant.snapshot quotedSnapshot).map nearest),
    (2, (MarketMessageVariant.increment quotedMove).map nearest)]

/-- as they are shown. -/
def movedRun : List (ProgramEvent Binary64) := shownAtOnce quotedConnections movedBook.toVector

theorem trace_movedRun : (program toUint64At 100 .empty).Trace movedRun := trace_shownAtOnce rfl

end Sample

/-- **The screen shows the exchange's book.** Whatever the threads of the
program do, and however often the session connects: if the order queue is
calm, and what is put on it, on all connections together, is what the exchange
published of a history of its book, with numbers that come through, the worker
never fails, and a drawing of the book shows the one the exchange had after `k`
messages, with `k` as in every drawing, and the sentinel past the last level
of its shorter side. -/
theorem exchange_on_screen {maxDepth : UInt16} {t : List (ProgramEvent Binary64)}
    (h : (program toUint64At maxDepth .empty).Trace t) (hcalm : CalmOrders t) {E : ℕ → Quotes}
    {published : List (MarketMessageVariant ℚ)}
    (hE : History (isBookClearNeeded maxDepth) E published)
    (hqueue : (queues t).orderQueue = published.map (·.map nearest)) :
    (orderSeen t).threw = none ∧ ∃ ks : List ℕ, ks.Pairwise (· ≤ ·)
      ∧ List.Forall₂ (fun v k => v.postedBefore ≤ k ∧ k ≤ v.takenBefore
          ∧ ∃ levels table, v.drawn.mapM OrderBookBox.uiRow = some table
            ∧ ShowsQuotes (E k) levels table)
        (orderSeen t).drawings ks := by
  -- what has been taken is what was published first
  obtain ⟨msgs, hmsgs, htaken⟩ : ∃ msgs, History (isBookClearNeeded maxDepth) E msgs
      ∧ (orderSeen t).taken = msgs.map (·.map nearest) := by
    have hfirst := taken_prefix_of_calm
      ((orderCodes toUint64At maxDepth).inOrder (trace_left_of_beside h)) hcalm
    rw [(everythingPut_eq t).1, hqueue] at hfirst
    refine ⟨published.take (orderSeen t).taken.length, hE.take _, ?_⟩
    rw [List.map_take]
    exact List.prefix_iff_eq_take.mp hfirst
  have hworks := orderSeen_works h
  have hlen : (orderSeen t).taken.length = msgs.length := by
    rw [htaken, List.length_map]
  -- the messages as they are applied, and as exact arithmetic would apply them
  have hexact : ∀ k, handleAll (applyMessage toUint64At (isBookClearNeeded maxDepth))
        ((orderSeen t).taken.take k)
      = applyMessages exactTicks (isBookClearNeeded maxDepth) (msgs.take k) := by
    intro k
    rw [htaken, ← List.map_take, handleAll_applyMessage]
    exact applyMessages_exact (fun msg hmsg => hmsgs.fits msg (List.mem_of_mem_take hmsg))
  constructor
  · by_contra hthrew
    obtain ⟨e, he⟩ := Option.ne_none_iff_exists'.mp hthrew
    obtain ⟨pre, msg, s, s', htaken', hpre, herror⟩ := hworks.threw e he
    obtain ⟨b, hrun, -⟩ := hmsgs.level_applyMessages (Nat.le_of_eq rfl)
    have hall := hexact msgs.length
    rw [List.take_of_length_le (Nat.le_of_eq hlen), htaken'] at hall
    have hlast : _ = Resumption.outcome (applyMessage toUint64At _ msg) _ :=
      outcome_handleAll_concat hpre
    rw [hall, Resumption.outcome_of_ok hrun, herror] at hlast
    cases hlast
  · obtain ⟨ks, hks, hshows⟩ := hworks.drawings
    refine ⟨ks, hks, hshows.imp (fun v k hv => ⟨hv.postedBefore_le, hv.known, ?_⟩)⟩
    have hk : k ≤ msgs.length := hlen ▸ Nat.le_trans hv.known hv.taken_le
    obtain ⟨b, hrun, hb⟩ := hmsgs.level_applyMessages hk
    have hkeeps := keeps_applyMessages_exact
      (fun msg hmsg => hmsgs.fits msg (List.mem_of_mem_take hmsg) : ∀ msg ∈ msgs.take k, _)
    obtain ⟨table, htable, hbook⟩ :=
      showsBook_of_allLevels (hkeeps.1 _ () b allLevels_empty hrun)
    refine ⟨_, table, ?_, showsQuotes_of_showsBook hbook hb (hmsgs.quotesFit hk)⟩
    rw [hv.drawn, stateAfter, hexact, Resumption.outcome_of_ok hrun]
    exact htable

/-- One drawing after a reconnect, of the book after both messages. -/
theorem exchange_on_screen_quoted :
    (orderSeen movedRun).drawings = [⟨2, 2, 2, movedBook.toVector⟩]
      ∧ (orderSeen movedRun).threw = none ∧ ∃ ks : List ℕ, ks.Pairwise (· ≤ ·)
        ∧ List.Forall₂ (fun v k => v.postedBefore ≤ k ∧ k ≤ v.takenBefore
            ∧ ∃ levels table, v.drawn.mapM OrderBookBox.uiRow = some table
              ∧ ShowsQuotes (quotedHistory k) levels table)
          (orderSeen movedRun).drawings ks := by
  exact ⟨rfl, exchange_on_screen trace_movedRun (calmOrders_shownAtOnce _ _)
    quotedMessages_history rfl⟩

end Ui
