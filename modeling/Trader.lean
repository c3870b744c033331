import Trader.LastWrite
import Trader.BookHistory
import Trader.IncrementLaws
import Trader.TopOfBook
import Trader.BookVector
import Trader.TradeBox
import Trader.WireGrouping
import Trader.Isolation
import Trader.FailedMessage
import Trader.Worker
import Trader.ForeignMessage
import Trader.FixApp
import Trader.SharedBook
import Trader.Reconnect
import Trader.LogFileWatcher
import Trader.LogBox
import Trader.TickConversion
import Trader.TickOrder
import Trader.Sentinel
import Trader.Pretty
import Trader.Tables
import Trader.SizeCell
import Trader.PriceCell
import Trader.ConfigEnv
import Trader.Logon
import Trader.Transition
import Trader.Lifetime
import Trader.Resumption
import Trader.Monitor
import Trader.Box
import Trader.BoxRuns
import Trader.Connections
import Trader.Shutdown
import Trader.Teardown
import Trader.Interruptible
import Trader.Program
import Trader.BoxViews
import Trader.CatchUp
import Trader.Frozen
import Trader.Subscription
import Trader.Subscribed
import Trader.LogTail
import Trader.Keeps
import Trader.Quotes
import Trader.Screen
import Trader.Replica
import Trader.Feed
