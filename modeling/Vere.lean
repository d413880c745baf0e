import Vere.King.Disk
import Vere.King.Newt
import Vere.Lib.Fuel
import Vere.Lib.Treap
import Vere.Noun.Basic
import Vere.Noun.Order
import Vere.Noun.OrderMet
import Vere.Noun.Compare
import Vere.Noun.Treap
import Vere.Lib.Sparse
import Vere.Noun.Hashtable
import Vere.Noun.HashtableMap
import Vere.Lib.Bits
import Vere.Ur.Bitstream
import Vere.Ur.Serial
import Vere.Noun.SerialJam
import Vere.Noun.SerialCue
import Vere.Noun.SerialMat
import Vere.Noun.SerialUd
import Vere.Noun.Slab
import Vere.Noun.SlabRun
import Vere.Lib.Linked
import Vere.Noun.Allocate
import Vere.Noun.AllocateHeap
import Vere.Noun.AllocateCalls
import Vere.Noun.AllocateRun
import Vere.King.Lord
import Vere.King.Pier
import Vere.King.Play
import Vere.Lib.Crash
import Vere.Noun.Events
import Vere.Noun.EventsImage
import Vere.Noun.EventsCrash
import Vere.Noun.EventsHistory
import Vere.Noun.EventsFault
import Vere.Noun.EventsSave
import Vere.Noun.EventsGuard
import Vere.Lib.Intern
import Vere.Ur.Hashcons
import Vere.Lib.Pails
import Vere.Ur.HashconsDict
import Vere.Ur.HashconsCue
import Vere.Ur.HashconsCoin
import Vere.Noun.TreapHistory
import Vere.King.NewtQueue
import Vere.Noun.Nock
import Vere.Noun.NockFormulaic
import Vere.Noun.NockAsm
import Vere.Noun.NockLayout
import Vere.Noun.NockAssemble
import Vere.Noun.NockBurn
import Vere.Noun.NockMachine
import Vere.Noun.NockTyped
import Vere.Noun.NockSafe
import Vere.Noun.NockSolid
import Vere.King.Ames
import Vere.King.AmesPacket
import Vere.King.AmesRelay
import Vere.King.AmesQueue
import Vere.Lib.Leads
import Vere.Noun.NockEvaluates
import Vere.Noun.NockRun
import Vere.Noun.NockHooks
import Vere.Noun.NockCorrect
import Vere.Noun.NockProduct
import Vere.King.LordHear
import Vere.Ur.BitReader
import Vere.Ur.BitWriter
import Vere.Ur.SerialTest
import Vere.Noun.Axis
import Vere.Lib.Counts
import Vere.Noun.Edit
import Vere.Noun.JetsReam
import Vere.Noun.JetsHook
import Vere.Noun.JetsKick
import Vere.Noun.JetsGate
import Vere.Noun.HashtableSpared
import Vere.Ur.Dict
import Vere.Noun.SerialXeno
import Vere.Noun.HashtableTake
import Vere.Noun.HashtableChance
import Vere.Noun.TreapApt
import Vere.Noun.Nord
import Vere.Noun.Words
import Vere.Noun.Extract
import Vere.Noun.Chop
import Vere.Noun.Blocks
import Vere.Noun.BlocksRip
import Vere.Noun.BlocksRep
import Vere.Noun.Murmur
import Vere.Noun.Unify
import Vere.Noun.Sing
import Vere.Noun.Mug
import Vere.Noun.Scramble
import Vere.King.UnixSync
import Vere.King.PierWall
import Vere.King.Auto
import Vere.King.AmesForward
import Vere.Lib.Visit
import Vere.Noun.Take
import Vere.Noun.TakeCopy
import Vere.Noun.TakeRun
import Vere.Noun.TakeWash
import Vere.Noun.TakeRoad
import Vere.King.PlayQueue
import Vere.Noun.Base16
import Vere.Noun.Phonemes
import Vere.Noun.ShipName
import Vere.Lib.Subsequence
import Vere.Noun.Loss
import Vere.Noun.Mark
import Vere.Noun.Sweep
import Vere.Noun.AllocateAligned
import Vere.Lib.Copy
import Vere.Noun.Pack
import Vere.Noun.PackNorth
import Vere.Noun.PackSouth
