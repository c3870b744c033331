import Mathlib.Algebra.Group.Nat.Defs
import Mathlib.Data.List.Forall2
import Trader.RingBuffer
import Trader.EntryLoop

set_option autoImplicit false

/-!
# The trade list

`ui::TradeBox` keeps the last hundred trades of `BTCUSDT` in a ring, fed by
the increments of the trade session. It reads an increment in the same loop
as the book does, and keeps of it the entries that are trades and that say
which side was the aggressor.

The variables the source declares before its loop and reuses in every
iteration – the id, the time – are reset or read afresh by each, so a trade
is decoded from its own entry alone (`decode`). What the ring holds after a
history of increments is then the tail of the trades decoded from it
(`onTrades_tail`).
-/

open Fix Binance EarlyExit

/-! ## Conversions of the standard library -/

/-- `std::from_chars(text.data(), text.data() + text.size(), value)` into an
unsigned 64-bit integer: the longest prefix of digits is its value, and
`value` is left as it was when there is none or it is out of range. -/
def fromChars (text : Text) (value : UInt64) : UInt64 :=
  let digits := text.takeWhile Char.isDigit
  if digits = [] then value
  else if Nat.ofDigitChars 10 digits 0 < 2 ^ 64 then
    UInt64.ofNat (Nat.ofDigitChars 10 digits 0)
  else value

/-- A text is a decimal numeral when it is digits and there is one. -/
def IsNumeral (text : Text) : Prop := text ≠ [] ∧ ∀ c ∈ text, c.isDigit = true

instance : DecidablePred IsNumeral := fun _ => inferInstanceAs (Decidable (_ ∧ _))

/-- **A numeral in range is read as its value.** -/
theorem fromChars_numeral {text : Text} (h : IsNumeral text) (value : UInt64)
    (hlt : Nat.ofDigitChars 10 text 0 < 2 ^ 64) :
    (fromChars text value).toNat = Nat.ofDigitChars 10 text 0 := by
  have htake : text.takeWhile Char.isDigit = text := List.takeWhile_eq_self_iff.mpr h.2
  unfold fromChars
  rw [htake]
  show (if text = [] then value else if _ then _ else value).toNat = _
  rw [if_neg h.1, if_pos hlt, UInt64.toNat_ofNat', Nat.mod_eq_of_lt hlt]

/-- A `std::array<char, 16>`. -/
abbrev CharArray : Type := Vector Char 16

/-- An array of null characters, which is the empty text. -/
def emptyChars : CharArray := Vector.replicate 16 '\x00'

/-- `std::snprintf(arr.data(), arr.size(), …)` of a text: at most fifteen
characters of it, and a null after them. -/
def snprintf (text : Text) : CharArray :=
  Vector.ofFn (fun i => if i.val < 15 then text.getD i.val '\x00' else '\x00')

/-- The text an array holds, up to its first null. -/
def cString (arr : CharArray) : Text := arr.toList.takeWhile (· ≠ '\x00')

/-- `%0wu`: a number in decimal, padded with zeros to a width. -/
def paddedDecimal (width n : ℕ) : Text := (Nat.toDigits 10 n).leftpad width '0'

/-- **A text that fits is printed whole** and read back as it was. -/
theorem cString_snprintf {text : Text} (hlen : text.length = 15) (hnull : '\x00' ∉ text) :
    cString (snprintf text) = text := by
  have harr : (snprintf text).toList = text ++ ['\x00'] := by
    refine List.ext_getElem ?_ (fun i h₁ h₂ => ?_)
    · rw [Vector.length_toList, List.length_append, hlen, List.length_singleton]
    · rw [List.length_append, hlen, List.length_singleton] at h₂
      rw [Vector.getElem_toList, List.getElem_append]
      show (Vector.ofFn _)[i] = _
      rw [Vector.getElem_ofFn]
      by_cases hi : i < 15
      · rw [if_pos hi, dif_pos (hlen.symm ▸ hi), List.getD_eq_getElem?_getD,
          List.getElem?_eq_getElem (hlen.symm ▸ hi), Option.getD_some]
      · rw [if_neg hi, dif_neg (hlen.symm ▸ hi), List.getElem_singleton]
  have hne : ∀ c ∈ text, decide (c ≠ '\x00') = true :=
    fun c hc => decide_eq_true (fun h => hnull (h ▸ hc))
  rw [cString, harr, List.takeWhile_append_of_pos hne, List.takeWhile_cons_of_neg
    (by decide), List.append_nil]

/-- A number that fits a width is printed in exactly that many digits. -/
theorem length_paddedDecimal {width n : ℕ} (hw : 0 < width) (h : n < 10 ^ width) :
    (paddedDecimal width n).length = width := by
  rw [paddedDecimal, List.length_leftpad]
  exact Nat.max_eq_left ((Nat.length_toDigits_le_iff (by decide) hw).mpr h)

theorem isDigit_of_mem_paddedDecimal {width n : ℕ} {c : Char}
    (h : c ∈ paddedDecimal width n) : c.isDigit = true := by
  rcases List.mem_append.mp h with hc | hc
  · rw [List.eq_of_mem_replicate hc]
    decide
  · exact Nat.isDigit_of_mem_toDigits (by decide) (by decide) hc

namespace Core

/-- `core::Trade`. -/
structure Trade where
  px : UInt64
  sz : UInt64
  id : UInt64
  side : SideEnum
  time : CharArray
  deriving DecidableEq

end Core

namespace Ui.TradeBox

open Core

/-- `TradeBox::MAX_LINES_`. -/
def maxLines : ℕ := 100

/-- `TradeBox::trade_ring_`. -/
abbrev TradeRing : Type := RingBuffer Trade maxLines

/-- The time of day as `on_trade` prints it, `"%02u:%02u:%02u.%06u"`, each
part cut to its largest value. -/
def timeOfDay (tval : UtcTimeStamp) : Text :=
  paddedDecimal 2 (min tval.hour 23) ++ ':' :: paddedDecimal 2 (min tval.minute 59)
    ++ ':' :: paddedDecimal 2 (min tval.second 59)
    ++ '.' :: paddedDecimal 6 (min tval.microsecond 999999)

/-- A time of day is fifteen characters, which is what the array has room
for: the parts are cut for nothing else. -/
theorem length_timeOfDay (tval : UtcTimeStamp) : (timeOfDay tval).length = 15 := by
  have hh := (length_paddedDecimal (by decide) (by omega) :
    (paddedDecimal 2 (min tval.hour 23)).length = 2)
  have hm := (length_paddedDecimal (by decide) (by omega) :
    (paddedDecimal 2 (min tval.minute 59)).length = 2)
  have hs := (length_paddedDecimal (by decide) (by omega) :
    (paddedDecimal 2 (min tval.second 59)).length = 2)
  have hu := (length_paddedDecimal (by decide) (by omega) :
    (paddedDecimal 6 (min tval.microsecond 999999)).length = 6)
  simp only [timeOfDay, List.length_append, List.length_cons, hh, hm, hs, hu]

theorem null_not_mem_timeOfDay (tval : UtcTimeStamp) : '\x00' ∉ timeOfDay tval := by
  have hdigit : ∀ width n, '\x00' ∉ paddedDecimal width n :=
    fun width n h => absurd (isDigit_of_mem_paddedDecimal h) (by decide)
  simp [timeOfDay, hdigit]

variable {δ : Type} (toUint64 : δ → UInt64 → UInt64)

/-- The time of a trade, when the entry has one. -/
def readTime : Option (FieldBase UtcTimeStamp) → EStateM Exception TradeRing CharArray
  | none => pure emptyChars
  | some eTime => do
    let tval ← getValue Tag.transactTime eTime
    pure (snprintf (timeOfDay tval))

/-- The case `MDEntryType_TRADE` of `on_trade`, for an entry that has an
aggressor side. -/
def recordTrade (symbol : SymbolEnum) (group : IncrementEntry δ) :
    EStateM Exception TradeRing Unit := do
  let ePx ← get Tag.mdEntryPx group.mdEntryPx
  let pxValue ← getValue Tag.mdEntryPx ePx
  let eSz ← get Tag.mdEntrySize group.mdEntrySize
  let szValue ← getValue Tag.mdEntrySize eSz
  let tradeIdStr ← get Tag.tradeID group.tradeID
  let sideField ← get Tag.aggressorSide group.aggressorSide
  let sideValue ← getValue Tag.aggressorSide sideField
  let side ← lift (Side.fromStr sideValue)
  let time ← readTime group.transactTime
  modify (·.pushBack
    { px := toUint64 pxValue (Config.getPriceTicksPerUnit symbol)
      sz := toUint64 szValue (Config.getSizeTicksPerUnit symbol)
      id := fromChars tradeIdStr 0
      side := side
      time := time })

/-- The switch on the entry type in `on_trade`. -/
def onEntryType (symbol : SymbolEnum) (group : IncrementEntry δ) (tp : Char) :
    EStateM Exception TradeRing Unit :=
  if tp = mdEntryTypeTrade then
    if group.aggressorSide.isSome then recordTrade toUint64 symbol group
    else pure ()  -- "trade with no side"
  else
    pure ()  -- "unknown trade FIX::MDEntryType"

/-- What the loop in `TradeBox::on_trade` does with an entry whose symbol is
`BTCUSDT`. -/
def onTradeEntry (symbol : SymbolEnum) (group : IncrementEntry δ) :
    EStateM Exception TradeRing Unit := do
  let eType ← get Tag.mdEntryType group.mdEntryType
  let tp ← getValue Tag.mdEntryType eType
  onEntryType toUint64 symbol group tp

/-- `TradeBox::on_trade`. -/
def onTrade (msg : MarketDataIncrementalRefresh δ) : EStateM Exception TradeRing Unit :=
  incrementLoop (onTradeEntry toUint64) msg

/-- A sequence of increments, each given to `on_trade`. -/
def onTrades : List (MarketDataIncrementalRefresh δ) → EStateM Exception TradeRing Unit
  | [] => pure ()
  | msg :: msgs => do
    onTrade toUint64 msg
    onTrades msgs

/-! ## The trade of an entry -/

/-- An entry is a trade that says which side was the aggressor. -/
def IsTrade (g : IncrementEntry δ) : Prop :=
  g.mdEntryType = some (.ok mdEntryTypeTrade) ∧ g.aggressorSide.isSome = true

instance : DecidablePred (IsTrade (δ := δ)) := fun g =>
  decidable_of_iff
    ((match g.mdEntryType with
      | some (.ok tp) => decide (tp = mdEntryTypeTrade)
      | _ => false) = true ∧ g.aggressorSide.isSome = true)
    (by
      unfold IsTrade
      rcases g.mdEntryType with _ | _ | tp
      · exact ⟨nofun, nofun⟩
      · exact ⟨nofun, nofun⟩
      · rw [decide_eq_true_iff, Option.some.injEq, Except.ok.injEq])

/-- **The trade an entry describes**, field by field: nothing in it comes
from anywhere but the entry. -/
structure DecodedFrom (g : IncrementEntry δ) (t : Trade) : Prop where
  px : ∃ px, g.mdEntryPx = some (.ok px)
    ∧ t.px = toUint64 px (Config.getPriceTicksPerUnit .btcusdt)
  sz : ∃ sz, g.mdEntrySize = some (.ok sz)
    ∧ t.sz = toUint64 sz (Config.getSizeTicksPerUnit .btcusdt)
  id : ∃ text, g.tradeID = some text ∧ t.id = fromChars text 0
  side : ∃ c, g.aggressorSide = some (.ok c) ∧ Side.fromStr c = .ok t.side
  time : (g.transactTime = none ∧ t.time = emptyChars)
    ∨ ∃ tval, g.transactTime = some (.ok tval) ∧ t.time = snprintf (timeOfDay tval)

/-- The trade an entry describes, when it describes one. -/
def decode (g : IncrementEntry δ) : Option Trade :=
  match g.mdEntryPx, g.mdEntrySize, g.tradeID, g.aggressorSide with
  | some (.ok px), some (.ok sz), some text, some (.ok c) =>
    match Side.fromStr c, g.transactTime with
    | .ok side, none =>
      some ⟨toUint64 px (Config.getPriceTicksPerUnit .btcusdt),
        toUint64 sz (Config.getSizeTicksPerUnit .btcusdt), fromChars text 0, side, emptyChars⟩
    | .ok side, some (.ok tval) =>
      some ⟨toUint64 px (Config.getPriceTicksPerUnit .btcusdt),
        toUint64 sz (Config.getSizeTicksPerUnit .btcusdt), fromChars text 0, side,
        snprintf (timeOfDay tval)⟩
    | _, _ => none
  | _, _, _, _ => none

/-- **An entry determines its trade.** -/
theorem decode_eq_some_iff {g : IncrementEntry δ} {t : Trade} :
    decode toUint64 g = some t ↔ DecodedFrom toUint64 g t := by
  constructor
  · intro h
    unfold decode at h
    split at h
    · next px sz text c hpx hsz hid hc =>
      split at h
      · next side hside htime =>
        obtain rfl := Option.some.inj h
        exact ⟨⟨px, hpx, rfl⟩, ⟨sz, hsz, rfl⟩, ⟨text, hid, rfl⟩, ⟨c, hc, hside⟩,
          Or.inl ⟨htime, rfl⟩⟩
      · next side tval hside htime =>
        obtain rfl := Option.some.inj h
        exact ⟨⟨px, hpx, rfl⟩, ⟨sz, hsz, rfl⟩, ⟨text, hid, rfl⟩, ⟨c, hc, hside⟩,
          Or.inr ⟨tval, htime, rfl⟩⟩
      · cases h
    · cases h
  · rintro ⟨⟨px, hpx, h₁⟩, ⟨sz, hsz, h₂⟩, ⟨text, hid, h₃⟩, ⟨c, hc, hside⟩, htime⟩
    obtain ⟨tpx, tsz, tid, tside, ttime⟩ := t
    obtain rfl : tpx = _ := h₁
    obtain rfl : tsz = _ := h₂
    obtain rfl : tid = _ := h₃
    rcases htime with ⟨hnone, h₅⟩ | ⟨tval, hsome, h₅⟩
    · obtain rfl : ttime = _ := h₅
      simp only [decode, hpx, hsz, hid, hc, hside, hnone]
    · obtain rfl : ttime = _ := h₅
      simp only [decode, hpx, hsz, hid, hc, hside, hsome]

/-- The trades an entry adds to the ring: its own, if it is one. -/
def entryTrades (g : IncrementEntry δ) : List Trade :=
  if IsTrade g then (decode toUint64 g).toList else []

/-- The fields the loop of `on_trade` reads of an entry it keeps. -/
def TradeReadable (g : IncrementEntry δ) : Prop :=
  (∃ tp, g.mdEntryType = some (.ok tp))
    ∧ (IsTrade g → ∃ t, DecodedFrom toUint64 g t)

/-- They do not include the symbol. -/
theorem TradeReadable.withSymbol {g : IncrementEntry δ} (h : TradeReadable toUint64 g)
    (symbol : Option Text) : TradeReadable toUint64 { g with symbol := symbol } := by
  refine ⟨h.1, fun htrade => ?_⟩
  obtain ⟨t, ht⟩ := h.2 htrade
  exact ⟨t, ht.px, ht.sz, ht.id, ht.side, ht.time⟩

/-! ## What `on_trade` does -/

section Run

variable {r r' : TradeRing} {u : Unit}

theorem readTime_ok_iff {o : Option (FieldBase UtcTimeStamp)} {arr : CharArray} :
    (readTime o).run r = .ok arr r'
      ↔ ((o = none ∧ arr = emptyChars)
          ∨ ∃ tval, o = some (.ok tval) ∧ arr = snprintf (timeOfDay tval)) ∧ r' = r := by
  rcases o with _ | eTime
  · rw [readTime, pure_ok_iff]
    constructor
    · rintro ⟨rfl, hr⟩
      exact ⟨Or.inl ⟨rfl, rfl⟩, hr⟩
    · rintro ⟨⟨-, rfl⟩ | ⟨tval, h, -⟩, hr⟩
      · exact ⟨rfl, hr⟩
      · cases h
  · rw [readTime]
    simp only [bind_ok_iff, getValue_ok_iff, pure_ok_iff]
    constructor
    · rintro ⟨tval, r₁, ⟨rfl, rfl⟩, rfl, rfl⟩
      exact ⟨Or.inr ⟨tval, rfl, rfl⟩, rfl⟩
    · rintro ⟨⟨h, -⟩ | ⟨tval, h, rfl⟩, rfl⟩
      · cases h
      · exact ⟨tval, _, ⟨Option.some.inj h, rfl⟩, rfl, rfl⟩

/-- **Recording a trade** pushes the trade of the entry. -/
theorem recordTrade_ok_iff {g : IncrementEntry δ} :
    (recordTrade toUint64 .btcusdt g).run r = .ok u r'
      ↔ ∃ t, DecodedFrom toUint64 g t ∧ r' = r.pushBack t := by
  unfold recordTrade
  simp only [bind_ok_iff, get_ok_iff, getValue_ok_iff, lift_ok_iff, readTime_ok_iff,
    modify_ok_iff]
  constructor
  · rintro ⟨ePx, r₁, ⟨hpx, rfl⟩, px, r₂, ⟨rfl, rfl⟩, eSz, r₃, ⟨hsz, rfl⟩, sz, r₄, ⟨rfl, rfl⟩,
      text, r₅, ⟨hid, rfl⟩, sideField, r₆, ⟨hc, rfl⟩, c, r₇, ⟨rfl, rfl⟩, side, r₈,
      ⟨hside, rfl⟩, time, r₉, ⟨htime, rfl⟩, rfl⟩
    exact ⟨_, ⟨⟨px, hpx, rfl⟩, ⟨sz, hsz, rfl⟩, ⟨text, hid, rfl⟩, ⟨c, hc, hside⟩, htime⟩, rfl⟩
  · rintro ⟨⟨tpx, tsz, tid, tside, ttime⟩, ⟨⟨px, hpx, h₁⟩, ⟨sz, hsz, h₂⟩, ⟨text, hid, h₃⟩,
      ⟨c, hc, hside⟩, htime⟩, rfl⟩
    obtain rfl : tpx = _ := h₁
    obtain rfl : tsz = _ := h₂
    obtain rfl : tid = _ := h₃
    exact ⟨.ok px, r, ⟨hpx, rfl⟩, px, r, ⟨rfl, rfl⟩, .ok sz, r, ⟨hsz, rfl⟩, sz, r, ⟨rfl, rfl⟩,
      text, r, ⟨hid, rfl⟩, .ok c, r, ⟨hc, rfl⟩, c, r, ⟨rfl, rfl⟩, tside, r, ⟨hside, rfl⟩,
      ttime, r, ⟨htime, rfl⟩, rfl⟩

/-- The switch on the type records the entry exactly when it is a trade. -/
theorem onEntryType_ok_iff {g : IncrementEntry δ} {tp : Char}
    (htp : g.mdEntryType = some (.ok tp)) :
    (onEntryType toUint64 .btcusdt g tp).run r = .ok u r'
      ↔ (IsTrade g → ∃ t, DecodedFrom toUint64 g t)
        ∧ r' = (entryTrades toUint64 g).foldl RingBuffer.pushBack r := by
  unfold onEntryType entryTrades
  have htrade : IsTrade g ↔ tp = mdEntryTypeTrade ∧ g.aggressorSide.isSome = true := by
    unfold IsTrade
    rw [htp, Option.some.injEq, Except.ok.injEq]
  have hskip : ¬ IsTrade g → ((pure () : EStateM Exception TradeRing Unit).run r = .ok u r'
      ↔ (IsTrade g → ∃ t, DecodedFrom toUint64 g t)
        ∧ r' = (if IsTrade g then (decode toUint64 g).toList else []).foldl
            RingBuffer.pushBack r) := by
    intro hno
    rw [if_neg hno, pure_ok_iff, List.foldl_nil]
    exact and_congr_left' (iff_of_true rfl (fun h => absurd h hno))
  by_cases h : tp = mdEntryTypeTrade
  · rw [if_pos h]
    by_cases hside : g.aggressorSide.isSome = true
    · have hyes : IsTrade g := htrade.mpr ⟨h, hside⟩
      rw [if_pos hside, recordTrade_ok_iff, if_pos hyes]
      constructor
      · rintro ⟨t, ht, rfl⟩
        rw [(decode_eq_some_iff toUint64).mpr ht]
        exact ⟨fun _ => ⟨t, ht⟩, rfl⟩
      · rintro ⟨hex, rfl⟩
        obtain ⟨t, ht⟩ := hex hyes
        rw [(decode_eq_some_iff toUint64).mpr ht]
        exact ⟨t, ht, rfl⟩
    · rw [if_neg hside]
      exact hskip (fun h' => hside h'.2)
  · rw [if_neg h]
    exact hskip (fun h' => h (htrade.mp h').1)

/-- **An entry of `BTCUSDT`** adds its trade, if it is one, and nothing
otherwise. -/
theorem onTradeEntry_ok_iff {g : IncrementEntry δ} :
    (onTradeEntry toUint64 .btcusdt g).run r = .ok u r'
      ↔ TradeReadable toUint64 g
        ∧ r' = (entryTrades toUint64 g).foldl RingBuffer.pushBack r := by
  unfold onTradeEntry TradeReadable
  simp only [bind_ok_iff, get_ok_iff, getValue_ok_iff]
  constructor
  · rintro ⟨eType, r₁, ⟨htype, rfl⟩, tp, r₂, ⟨rfl, rfl⟩, h⟩
    obtain ⟨hread, hr⟩ := (onEntryType_ok_iff toUint64 htype).mp h
    exact ⟨⟨⟨tp, htype⟩, hread⟩, hr⟩
  · rintro ⟨⟨⟨tp, htype⟩, hread⟩, hr⟩
    exact ⟨.ok tp, r, ⟨htype, rfl⟩, tp, r, ⟨rfl, rfl⟩,
      (onEntryType_ok_iff toUint64 htype).mpr ⟨hread, hr⟩⟩

/-- Pushing the trades of one entry after another is pushing all of them. -/
theorem foldl_entryTrades (gs : List (IncrementEntry δ)) (r : TradeRing) :
    gs.foldl (fun r g => (entryTrades toUint64 g).foldl RingBuffer.pushBack r) r
      = (gs.flatMap (entryTrades toUint64)).foldl RingBuffer.pushBack r :=
  List.foldl_flatMap.symm

/-- The condition under which `on_trade` ends normally. -/
def TradesProcessable (msg : MarketDataIncrementalRefresh δ) : Prop :=
  CountFits msg.noMDEntries msg.groups
    ∧ ∀ p ∈ entriesOf msg, Accepted p.1 ∧ (isBtc p.1 = true → TradeReadable toUint64 p.2)

/-- The trades of an increment, in the order of its entries. -/
def messageTrades (msg : MarketDataIncrementalRefresh δ) : List Trade :=
  (btcEntries (entriesOf msg)).flatMap (entryTrades toUint64)

/-- **`on_trade` ends normally** under a condition on the message alone,
having pushed the trades of the message. -/
theorem onTrade_ok_iff {msg : MarketDataIncrementalRefresh δ} :
    (onTrade toUint64 msg).run r = .ok u r'
      ↔ TradesProcessable toUint64 msg
        ∧ r' = (messageTrades toUint64 msg).foldl RingBuffer.pushBack r := by
  unfold onTrade TradesProcessable messageTrades
  rw [incrementLoop_ok_iff (fun g u s s' => onTradeEntry_ok_iff toUint64),
    foldl_entryTrades, and_assoc]

/-- A history of increments pushes the trades of all of them, in order. -/
theorem onTrades_ok_iff {msgs : List (MarketDataIncrementalRefresh δ)} :
    (onTrades toUint64 msgs).run r = .ok u r'
      ↔ (∀ msg ∈ msgs, TradesProcessable toUint64 msg)
        ∧ r' = (msgs.flatMap (messageTrades toUint64)).foldl RingBuffer.pushBack r := by
  induction msgs generalizing r with
  | nil =>
    rw [onTrades, pure_ok_iff, and_iff_right rfl]
    exact (and_iff_right (fun msg hmsg => absurd hmsg List.not_mem_nil)).symm
  | cons msg msgs ih =>
    rw [onTrades, bind_ok_iff, List.forall_mem_cons, List.flatMap_cons, List.foldl_append]
    constructor
    · rintro ⟨u₁, r₁, h₁, h⟩
      obtain ⟨hmsg, rfl⟩ := (onTrade_ok_iff toUint64).mp h₁
      obtain ⟨hall, hr⟩ := ih.mp h
      exact ⟨⟨hmsg, hall⟩, hr⟩
    · rintro ⟨⟨hmsg, hall⟩, hr⟩
      exact ⟨(), _, (onTrade_ok_iff toUint64).mpr ⟨hmsg, rfl⟩, ih.mpr ⟨hall, hr⟩⟩

/-! ## The ring is the tail of the trades -/

/-- The entries of an increment that are accepted as trades: taken for
`BTCUSDT`, of type `TRADE`, with an aggressor side. -/
def acceptedTrades (msg : MarketDataIncrementalRefresh δ) : List (IncrementEntry δ) :=
  (btcEntries (entriesOf msg)).filter (fun g => IsTrade g)

/-- **The trade an entry describes, as a reader sees it**: its id is the
value of the entry's numeral, its time reads as the entry's time. -/
structure Describes (g : IncrementEntry δ) (t : Trade) : Prop extends
    DecodedFrom toUint64 g t where
  idValue : ∀ text, g.tradeID = some text → IsNumeral text →
    Nat.ofDigitChars 10 text 0 < 2 ^ 64 → t.id.toNat = Nat.ofDigitChars 10 text 0
  timeText : (g.transactTime = none ∧ cString t.time = [])
    ∨ ∃ tval, g.transactTime = some (.ok tval) ∧ cString t.time = timeOfDay tval

theorem DecodedFrom.describes {g : IncrementEntry δ} {t : Trade}
    (h : DecodedFrom toUint64 g t) : Describes toUint64 g t := by
  refine ⟨h, ?_, ?_⟩
  · intro text htext hnum hlt
    obtain ⟨text', htext', hid⟩ := h.id
    obtain rfl := Option.some.inj (htext.symm.trans htext')
    rw [hid]
    exact fromChars_numeral hnum 0 hlt
  · rcases h.time with ⟨hnone, htime⟩ | ⟨tval, hsome, htime⟩
    · rw [htime]
      exact Or.inl ⟨hnone, by decide⟩
    · rw [htime]
      exact Or.inr ⟨tval, hsome, cString_snprintf (length_timeOfDay tval)
        (null_not_mem_timeOfDay tval)⟩

/-- Readable entries add one trade each, if they are trades, and each its
own. -/
theorem forall₂_entryTrades {gs : List (IncrementEntry δ)}
    (h : ∀ g ∈ gs, TradeReadable toUint64 g) :
    List.Forall₂ (DecodedFrom toUint64) (gs.filter (fun g => IsTrade g))
      (gs.flatMap (entryTrades toUint64)) := by
  induction gs with
  | nil => exact List.Forall₂.nil
  | cons g gs ih =>
    obtain ⟨hg, hgs⟩ := List.forall_mem_cons.mp h
    rw [List.flatMap_cons]
    unfold entryTrades
    by_cases htrade : IsTrade g
    · obtain ⟨t, ht⟩ := hg.2 htrade
      rw [List.filter_cons, if_pos (decide_eq_true htrade), if_pos htrade,
        (decode_eq_some_iff toUint64).mpr ht]
      exact List.Forall₂.cons ht (ih hgs)
    · rw [List.filter_cons, if_neg (fun h' => htrade (of_decide_eq_true h')), if_neg htrade]
      exact ih hgs

/-- **The ring is the tail of the decoded trades.** After a history of
increments processed without an exception, it holds the last hundred of the
trades it held and those accepted since, oldest first, each decoded from its
own entry. -/
theorem onTrades_tail {msgs : List (MarketDataIncrementalRefresh δ)}
    (h : (onTrades toUint64 msgs).run r = .ok u r') :
    ∃ trades, r'.items = (r.items ++ trades).rtake 100
      ∧ List.Forall₂ (Describes toUint64) (msgs.flatMap acceptedTrades) trades := by
  obtain ⟨hall, rfl⟩ := (onTrades_ok_iff toUint64).mp h
  refine ⟨msgs.flatMap (messageTrades toUint64), RingBuffer.foldl_pushBack_items _ _, ?_⟩
  have hread : ∀ g ∈ msgs.flatMap (fun msg => btcEntries (entriesOf msg)),
      TradeReadable toUint64 g := by
    intro g hg
    obtain ⟨msg, hmsg, hg⟩ := List.mem_flatMap.mp hg
    obtain ⟨p, hp, rfl⟩ := List.mem_map.mp hg
    obtain ⟨hp, hbtc⟩ := List.mem_filter.mp hp
    exact ((hall msg hmsg).2 p hp).2 hbtc
  have hdecoded := forall₂_entryTrades toUint64 hread
  rw [List.filter_flatMap, List.flatMap_assoc] at hdecoded
  exact hdecoded.imp (fun g t ht => ht.describes toUint64)

/-- Two trades in one increment, the second inheriting the symbol of the
first, both reach an empty ring. -/
theorem onTrades_tail_inherited :
    ∃ (msgs : List (MarketDataIncrementalRefresh ℕ)) (r' : TradeRing),
      (onTrades (fun px ticks => UInt64.ofNat px * ticks) msgs).run RingBuffer.empty
        = .ok () r'
      ∧ (msgs.flatMap acceptedTrades).length = 2
      ∧ ∃ trades, r'.items = ((RingBuffer.empty : TradeRing).items ++ trades).rtake 100
        ∧ List.Forall₂ (Describes fun px ticks => UInt64.ofNat px * ticks)
            (msgs.flatMap acceptedTrades) trades :=
  ⟨[.ofGroups
      [{ symbol := some "BTCUSDT".toList, mdEntryType := some (.ok '2'),
         mdEntryPx := some (.ok 9), mdEntrySize := some (.ok 3),
         tradeID := some "17".toList, aggressorSide := some (.ok '1') },
       { mdEntryType := some (.ok '2'), mdEntryPx := some (.ok 8),
         mdEntrySize := some (.ok 1), tradeID := some "18".toList,
         aggressorSide := some (.ok '2'),
         transactTime := some (.ok ⟨7, 17, 50, 31794⟩) }]],
    _, rfl, rfl, onTrades_tail _ rfl⟩

end Run

end Ui.TradeBox
