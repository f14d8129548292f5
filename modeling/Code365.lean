import Code365.RjIpc.Stream
import Code365.RjIpc.Client
import Code365.Audio.AudioCore
import Code365.Ini.ReadYourWrite
import Code365.OsLesson.Exp2.Conservation
import Code365.OsLesson.Exp2.Gate
import Code365.OsLesson.Exp2.Capacity
import Code365.OsLesson.Exp1
import Code365.Algorithms.Rsa
import Code365.Algorithms.Sha1Hash
import Code365.Algorithms.AesRoundTrip
import Code365.Algorithms.RedBlackDelete
import Code365.Algorithms.CircularBuffer
import Code365.Algorithms.CsvTracking
import Code365.Algorithms.LazySegmentTree
import Code365.Algorithms.SegTree
import Code365.Algorithms.UnionFind
import Code365.Algorithms.HashTable
import Code365.Algorithms.QuineSelection
import Code365.Algorithms.SjfAccounting
import Code365.Algorithms.BinarySearchSet
import Code365.Algorithms.CircularQueue
import Code365.Network.Termination
import Code365.RjIpc.Broadcast
import Code365.Video.Report
import Code365.Video.VideoManager
import Code365.Echo.ModeCommands
import Code365.Json.Children
import Code365.OsLesson.HashMemory
import Code365.Tools.CheckIp
import Code365.Product.SystemInfo
import Code365.Tools.SetResolution
import Code365.Tiny4412.Dnw
import Code365.AudioUtils.EmptyFragments
import Code365.TermAutotest.BmpReader
import Code365.NetTest.StressRecord
import Code365.Algorithms.Skyline
import Code365.Algorithms.Dijkstra
import Code365.Algorithms.BellmanFord
import Code365.Algorithms.Kruskal
import Code365.Algorithms.HuffmanCode
import Code365.Algorithms.MinimumCut
import Code365.Algorithms.Tarjan
import Code365.Algorithms.ArticulationPoints
import Code365.Algorithms.MorrisInorder
import Code365.Algorithms.Kmp
import Code365.Algorithms.EditDistance
import Code365.Algorithms.LongestIncreasing
import Code365.Algorithms.Parentheses
import Code365.Algorithms.SortedPermutations
import Code365.Algorithms.Sudoku
import Code365.Algorithms.AvlTree
import Code365.Algorithms.IntegerPartition
import Code365.Algorithms.Crc32
import Code365.Algorithms.EggDropping
import Code365.Algorithms.CsvCompile
import Code365.Algorithms.TernarySearch
import Code365.OsLesson.Exp2.Fifo
