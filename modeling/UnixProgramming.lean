import UnixProgramming.Lib.Runs
import UnixProgramming.Lib.Loops
import UnixProgramming.Lib.Mutexes
import UnixProgramming.Lib.Numerals
import UnixProgramming.Lib.Fields
import UnixProgramming.Lib.TreeGrowth
import UnixProgramming.Lib.ByteMemory
import UnixProgramming.Lib.CStrings
import UnixProgramming.Lib.Tokens
import UnixProgramming.Lib.Buffers
import UnixProgramming.Lib.FirstPaths
import UnixProgramming.Lib.FirstStops
import UnixProgramming.Lib.RichStreams
import UnixProgramming.Lib.OwnedBlocks
import UnixProgramming.Lib.Registers
import UnixProgramming.Lib.Elf
import UnixProgramming.Lib.Executions
import UnixProgramming.Lib.Labels
import UnixProgramming.Lib.Processor
import UnixProgramming.Lib.ProcessorRules
import UnixProgramming.Assembly.Signs
import UnixProgramming.Assembly.Divisions
import UnixProgramming.Assembly.Sorting
import UnixProgramming.Assembly.Digits
import UnixProgramming.Assembly.Letters
import UnixProgramming.Assembly.Recurrence
import UnixProgramming.Libsolver.Solver
import UnixProgramming.Libsolver.Search
import UnixProgramming.Libsolver.Wins
import UnixProgramming.Libsolver.Load
import UnixProgramming.Libsolver.Numbers
import UnixProgramming.Libsolver.MazeText
import UnixProgramming.Libsolver.Replay
import UnixProgramming.Libsolver.Sections
import UnixProgramming.Libsolver.GotSlots
import UnixProgramming.Libsolver.Challenge
import UnixProgramming.Logger.Config
import UnixProgramming.Logger.Blacklist
import UnixProgramming.Logger.Kernel
import UnixProgramming.Logger.Wrappers
import UnixProgramming.Logger.Links
import UnixProgramming.Logger.Effects
import UnixProgramming.Logger.Logs
import UnixProgramming.Logger.Arguments
import UnixProgramming.Logger.Memory
import UnixProgramming.Logger.Rules
import UnixProgramming.Logger.Escaping
import UnixProgramming.Logger.Names
import UnixProgramming.Logger.ReadFilter
import UnixProgramming.Logger.Capacities
import UnixProgramming.Mazemod.Data
import UnixProgramming.Mazemod.Generate
import UnixProgramming.Mazemod.Carving
import UnixProgramming.Mazemod.DepthFirst
import UnixProgramming.Mazemod.Perfect
import UnixProgramming.Mazemod.Sizes
import UnixProgramming.Mazemod.Device
import UnixProgramming.Mazemod.SlotTable
import UnixProgramming.Mazemod.Returns
import UnixProgramming.Mazemod.SlotInvariant
import UnixProgramming.Mazemod.Close
import UnixProgramming.Mazemod.CreateReplies
import UnixProgramming.Mazemod.Contents
import UnixProgramming.Mazemod.Confinement
import UnixProgramming.Mazemod.ProcRead
import UnixProgramming.Mazemod.ProcText
import UnixProgramming.Mazemod.Walk
import UnixProgramming.Mazemod.Regeneration
import UnixProgramming.Mazemod.Interference
import UnixProgramming.Mazemod.Batches
import UnixProgramming.Mazemod.Reading
import UnixProgramming.Mazemod.TestProgram
import UnixProgramming.Mazemod.Allocation
import UnixProgramming.Sdb.Tracee
import UnixProgramming.Sdb.Debugger
import UnixProgramming.Sdb.Arming
import UnixProgramming.Sdb.PatchedHit
import UnixProgramming.Sdb.Patches
import UnixProgramming.Sdb.Stops
import UnixProgramming.Sdb.TableBounds
import UnixProgramming.Sdb.Outcomes
import UnixProgramming.Sdb.Order
import UnixProgramming.Sdb.Edits
import UnixProgramming.Sdb.Listing
import UnixProgramming.Sdb.Coverage
import UnixProgramming.Sdb.MemoryInvariant
import UnixProgramming.Sdb.NativeStops
import UnixProgramming.Sdb.Prompts
import UnixProgramming.Sdb.SingleSteps
import UnixProgramming.Sdb.Continues
import UnixProgramming.Sdb.FirstEvents
import UnixProgramming.Sdb.ExactRuns
import UnixProgramming.Sdb.Transparency
import UnixProgramming.Sdb.CommandLine
import UnixProgramming.Sdb.Scripts
import UnixProgramming.Sdb.InfoBreak
import UnixProgramming.Sdb.SyscallReports
import UnixProgramming.GetFlag.Service
import UnixProgramming.GetFlag.Schedules
import UnixProgramming.GetFlag.Jobs
import UnixProgramming.GetFlag.Wakeups
import UnixProgramming.GetFlag.Addresses
import UnixProgramming.GetFlag.Races
import UnixProgramming.Fortune.Service
import UnixProgramming.Fortune.Sandbox
import UnixProgramming.Fortune.Races
import UnixProgramming.Fortune.Serial
