import Trader.Fix

set_option autoImplicit false

/-!
# Symbols, sides and tick sizes

The enumerations a worker turns the texts of a message into. The symbol
conversion is the one that matters to the rest: it looks at the length of
the text and at its first byte, and throws for everything it does not
recognise that way. So it accepts every seven-byte text beginning with
`B` or `E`, of which `BTCUSDT` and `ETHUSDT` are one each
(`Symbol.fromStr_eq_btcusdt_iff`).
-/

namespace Binance

open Fix

/-- `binance::SymbolEnum`. -/
inductive SymbolEnum where
  | btcusdt
  | ethusdt
  deriving DecidableEq

namespace Symbol

/-- `Symbol::from_str`. -/
def fromStr (symbol : Text) : Except Exception SymbolEnum :=
  if symbol.length ≠ 7 then
    .error (.runtimeError
      ("cannot convert string to SymbolEnum - short string. value [".toList
        ++ symbol ++ "]".toList))
  else
    match symbol.head? with
    | some 'B' => .ok .btcusdt
    | some 'E' => .ok .ethusdt
    | _ => .error (.runtimeError
        ("cannot convert string to SymbolEnum - missing mapping. ".toList
          ++ "NB: this should never throw. value [".toList ++ symbol ++ "]".toList))

/-- `Symbol::to_str`. The throw after its switch is for values that are no
enumerator, which `from_str` never returns. -/
def toStr : SymbolEnum → Text
  | .btcusdt => "BTCUSDT".toList
  | .ethusdt => "ETHUSDT".toList

/-- The text of the one instrument the book and the trade list are for. -/
def btcusdtText : Text := toStr .btcusdt

/-- **What the conversion of a symbol comes to**: seven bytes, and the first
of them. -/
theorem fromStr_eq (symbol : Text) :
    (symbol.length = 7 ∧ symbol.head? = some 'B' ∧ fromStr symbol = .ok .btcusdt)
      ∨ (symbol.length = 7 ∧ symbol.head? = some 'E' ∧ fromStr symbol = .ok .ethusdt)
      ∨ (¬ (symbol.length = 7 ∧ (symbol.head? = some 'B' ∨ symbol.head? = some 'E'))
        ∧ ∃ what, fromStr symbol = .error (.runtimeError what)) := by
  unfold fromStr
  by_cases hlen : symbol.length = 7
  · rw [if_neg (not_not_intro hlen)]
    split
    · next hB => exact Or.inl ⟨hlen, hB, rfl⟩
    · next hE => exact Or.inr (Or.inl ⟨hlen, hE, rfl⟩)
    · next hB hE =>
      refine Or.inr (Or.inr ⟨?_, _, rfl⟩)
      rintro ⟨-, h | h⟩
      · exact hB h
      · exact hE h
  · rw [if_pos hlen]
    exact Or.inr (Or.inr ⟨fun h => hlen h.1, _, rfl⟩)

/-- **Recognition goes by a hash**: every seven-byte text beginning with `B`
is taken for `BTCUSDT`. -/
theorem fromStr_eq_btcusdt_iff {symbol : Text} :
    fromStr symbol = .ok .btcusdt
      ↔ symbol.length = 7 ∧ symbol.head? = some 'B' := by
  rcases fromStr_eq symbol with ⟨hlen, hB, h⟩ | ⟨-, hE, h⟩ | ⟨hno, what, h⟩
  · exact iff_of_true h ⟨hlen, hB⟩
  · rw [h, hE]
    exact iff_of_false nofun (fun h' => absurd h'.2 (by decide))
  · rw [h]
    exact iff_of_false nofun (fun h' => hno ⟨h'.1, Or.inl h'.2⟩)

/-- The texts the conversion accepts. -/
theorem fromStr_ok_iff {symbol : Text} :
    (∃ sym, fromStr symbol = .ok sym)
      ↔ symbol.length = 7 ∧ (symbol.head? = some 'B' ∨ symbol.head? = some 'E') := by
  rcases fromStr_eq symbol with ⟨hlen, hB, h⟩ | ⟨hlen, hE, h⟩ | ⟨hno, what, h⟩
  · exact iff_of_true ⟨_, h⟩ ⟨hlen, Or.inl hB⟩
  · exact iff_of_true ⟨_, h⟩ ⟨hlen, Or.inr hE⟩
  · rw [h]
    exact iff_of_false nofun hno

/-- Every enumerator is read back from its own text. -/
theorem fromStr_toStr (sym : SymbolEnum) : fromStr (toStr sym) = .ok sym := by
  cases sym <;> decide

end Symbol

/-- `binance::SideEnum`. -/
inductive SideEnum where
  | buy
  | sell
  deriving DecidableEq

/-- `Side::from_str`. -/
def Side.fromStr (side : Char) : Except Exception SideEnum :=
  match side with
  | '1' => .ok .buy
  | '2' => .ok .sell
  | _ => .error (.runtimeError
      ("cannot convert string to SideEnum - missing mapping. ".toList
        ++ "NB: this should never throw. value [".toList ++ [side] ++ "]".toList))

/-- The side characters the conversion accepts. -/
theorem Side.fromStr_ok_iff {side : Char} :
    (∃ s, Side.fromStr side = .ok s) ↔ side = '1' ∨ side = '2' := by
  unfold Side.fromStr
  split
  · exact iff_of_true ⟨_, rfl⟩ (Or.inl rfl)
  · exact iff_of_true ⟨_, rfl⟩ (Or.inr rfl)
  · next h1 h2 => exact iff_of_false nofun (fun h => h.elim h1 h2)

/-- `Side::to_str`, likewise without the throw after its switch. -/
def Side.toStr : SideEnum → Text
  | .buy => "BUY".toList
  | .sell => "SELL".toList

namespace Config

/-- `Config::get_price_ticks_per_unit`. -/
def getPriceTicksPerUnit : SymbolEnum → UInt64
  | .btcusdt => 100
  | .ethusdt => 100

/-- `Config::get_size_ticks_per_unit`. -/
def getSizeTicksPerUnit : SymbolEnum → UInt64
  | .btcusdt => 100000
  | .ethusdt => 10000

end Config

end Binance
