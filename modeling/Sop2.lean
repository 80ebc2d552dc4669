import Sop2.Support.Runs
import Sop2.Support.Monitor
import Sop2.Support.Bytes
import Sop2.Support.ByteOrder
import Sop2.Support.Shuffle
import Sop2.Support.Draws
import Sop2.Lab06.Channel.Definitions
import Sop2.Lab06.Channel.Fifo
import Sop2.Lab06.Channel.Wakeup
import Sop2.Lab06.Channel.EndOfStream
import Sop2.Lab08.Transfer.Server
import Sop2.Lab08.Transfer.Client
import Sop2.Lab08.Transfer.Delivery
import Sop2.Lab08.Transfer.Duplicates
import Sop2.Lab07.Poslancy.Server
import Sop2.Lab07.Poslancy.Registry
import Sop2.Lab07.Poslancy.Broadcast
import Sop2.Support.RobustMutex
import Sop2.Lab06.Bitronka.Shop
import Sop2.Lab06.Bitronka.Locks
import Sop2.Lab06.Bitronka.Sorting
import Sop2.Lab06.Bitronka.Casualties
import Sop2.Lab06.Bitronka.Reports
import Sop2.Lab07.Aigen.Server
import Sop2.Lab07.Aigen.Room
import Sop2.Lab07.Aigen.Matching
import Sop2.Lab07.Aigen.Messages
import Sop2.Lab07.Hre.Server
import Sop2.Lab07.Hre.Registration
import Sop2.Lab07.Hre.Disconnect
import Sop2.Lab08.Napoleon.Queue
import Sop2.Lab08.Napoleon.StaffMap
import Sop2.Lab06.Calka.Program
import Sop2.Lab06.Calka.Results
import Sop2.Lab06.Calka.Teardown
import Sop2.Lab05.Ship.Ring
import Sop2.Lab05.Ship.Progress
import Sop2.Lab05.Ship.Deal
import Sop2.Lab05.Ship.Discard
import Sop2.Lab05.Roncevaux.Fight
import Sop2.Lab05.Roncevaux.Battle
import Sop2.Lab05.Roncevaux.Strokes
import Sop2.Support.Piped
import Sop2.Support.PipedEnds
import Sop2.Lab06.Board.Search
import Sop2.Lab05.Factory.Brigades
import Sop2.Lab05.Factory.Conservation
import Sop2.Lab06.Cards.Table
import Sop2.Support.Handshake
import Sop2.Lab06.Cards.Semaphores
import Sop2.Lab06.Cards.Lockstep
import Sop2.Lab06.Cards.Scores
import Sop2.Lab06.Cards.Barriers
import Sop2.Lab06.Cards.Episodes
import Sop2.Lab06.Cards.Arrivals
import Sop2.Lab06.Cards.Reopening
import Sop2.Lab06.Cards.Rounds
import Sop2.Lab06.Cards.StaleCards
import Sop2.Lab05.Cards.Game
import Sop2.Lab05.Cards.Rounds
import Sop2.Lab06.Cards.Deck
import Sop2.Lab05.Cards.Hand
import Sop2.Lab05.Provinces.Endings
import Sop2.Lab05.Provinces.Cascade
import Sop2.Lab08.Napoleon.Names
import Sop2.Lab08.Napoleon.Sightings
import Sop2.Lab05.Prog21.Blocks
import Sop2.Lab05.Prog22b.Frames
import Sop2.Lab06.Sop1.Histogram
import Sop2.Lab08.Transfer.Isolation
import Sop2.Lab07.Pidsumming.Server
import Sop2.Lab07.L7.Calculator
import Sop2.Lab07.Poslancy.Robustness
import Sop2.Lab05.Lotto.Accounts
import Sop2.Lab05.Lotto.Draw
import Sop2.Lab06.Channel.Doubler
import Sop2.Lab06.Channel.Sizes
import Sop2.Lab06.Channel.Opening
import Sop2.Lab05.Lotto.Settlement
import Sop2.Lab05.Provinces.Messages
import Sop2.Lab05.Provinces.Flooding
import Sop2.Lab05.Provinces.Routing
import Sop2.Lab05.Provinces.Forwarding
import Sop2.Lab05.Provinces.Config
import Sop2.Support.PipedSetUp
import Sop2.Lab05.Roulette.Player
import Sop2.Lab05.PipeUtils.SetUp
import Sop2.Lab05.Roncevaux.EnemyList
import Sop2.Lab07.L7.Bulk
import Sop2.Lab08.Transfer.Table
import Sop2.Support.Int32
import Sop2.Support.Decimal
import Sop2.Support.PipedTokens
import Sop2.Support.Rings
import Sop2.Lab05.Cycle.Ring
import Sop2.Lab05.Cycle.Number
import Sop2.Lab05.Cycle.Ending
import Sop2.Lab05.Roulette.Casino
import Sop2.Lab05.Roulette.Exchange
import Sop2.Lab05.Roulette.Accounts
import Sop2.Lab07.L7.Service
import Sop2.Lab07.L7.Isolation
import Sop2.Lab07.L7.Silence
import Sop2.Lab08.Napoleon.Messages
import Sop2.Lab08.Napoleon.Orders
import Sop2.Lab07.Hre.Broadcast
import Sop2.Lab05.Ship.Voyage
import Sop2.Lab05.Ship.Landfall
import Sop2.Lab05.Ship.Winner
