import FeS2.Library.EventSystem
import FeS2.Ruby.DirectoryMemory
import FeS2.Ruby.DramTransactions
import FeS2.Library.RefCount
import FeS2.Pyrite.RegFile
import FeS2.Pyrite.Rename
import FeS2.Pyrite.PreciseSquash
import FeS2.Library.LastWriter
import FeS2.Pyrite.BranchRepair
import FeS2.Pyrite.DoubleWord
import FeS2.Pyrite.InvalidationReplay
import FeS2.Pyrite.LoadValues
import FeS2.Library.Network
import FeS2.Pyrite.Coalescing
import FeS2.Pyrite.InstructionWindow
import FeS2.Pyrite.SequencerCredit
import FeS2.Pyrite.WindowBounds
import FeS2.Ruby.CacheController
import FeS2.Ruby.CacheView
import FeS2.Ruby.CoherenceProgress
import FeS2.Library.ShortestPath
import FeS2.Ruby.Multicast
import FeS2.Ruby.PersistentArbitration
import FeS2.Library.ExceptRun
import FeS2.Library.Tally
import FeS2.Ruby.CacheHierarchy
import FeS2.Ruby.TokenActions
import FeS2.Ruby.TokenConservation
import FeS2.Ruby.TokenExclusion
import FeS2.Ruby.TokenHome
import FeS2.Ruby.TokenOwnership
import FeS2.Pyrite.ByteAlgebra
import FeS2.Pyrite.CrackedAccess
import FeS2.Pyrite.CrackedLoad
import FeS2.Pyrite.FlushLoop
import FeS2.Pyrite.Forwarding
import FeS2.Pyrite.SelectLoop
import FeS2.Pyrite.BranchHistory
import FeS2.Ruby.EventQueue
import FeS2.Slicc.Atomicity
import FeS2.Slicc.Wakeup
import FeS2.Library.ArrivalLog
import FeS2.Ruby.MessageBuffer
import FeS2.Ruby.NextHop
import FeS2.Ruby.OrderedNetwork
import FeS2.Ruby.NetworkFlow
import FeS2.Ruby.TotalOrder
import FeS2.Library.Agenda
import FeS2.Library.DelayLine
import FeS2.Library.LinkedRing
import FeS2.Pyrite.EventDelivery
import FeS2.Pyrite.PipeStages
import FeS2.Pyrite.ReturnAddressRepair
import FeS2.Decoder.Division
import FeS2.Decoder.DivisionForms
import FeS2.Decoder.LoopInsn
import FeS2.Decoder.DirectionFlag
import FeS2.Decoder.RepString
import FeS2.Common.PrioHeap
import FeS2.Ruby.MessageHeap
import FeS2.Ruby.Wakeups
import FeS2.Common.Address
import FeS2.Decoder.Extension
import FeS2.Ruby.CacheMemory
import FeS2.Ruby.CacheSets
import FeS2.Ruby.HomeNode
import FeS2.Ruby.LevelExclusion
import FeS2.Ruby.Sequencer
import FeS2.Pyrite.DoomedMarker
import FeS2.Pyrite.SkipBlock
import FeS2.Common.HeapRuns
import FeS2.Library.RoundRobin
import FeS2.Ruby.SwitchElement
import FeS2.Ruby.Torus
import FeS2.Decoder.UopBuffer
import FeS2.Decoder.BitTest
import FeS2.Decoder.FlagReaders
import FeS2.Library.StableQueue
import FeS2.Pyrite.WaitListRuns
import FeS2.Ruby.TimerTable
import FeS2.Decoder.DoubleShiftResults
import FeS2.Decoder.StackResults
import FeS2.DRAMSim.Conservation
import FeS2.DRAMSim.DeviceTiming
import FeS2.DRAMSim.FourActivates
import FeS2.DRAMSim.OpenRows
import FeS2.DRAMSim.RoundRobins
