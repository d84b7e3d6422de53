import OsyProg.Blocking
import OsyProg.Preemption
import OsyProg.RoundRobin
import OsyProg.SchedulerLoop
import OsyProg.ContextSwitch
import OsyProg.Descriptors
import OsyProg.TailPipes
import OsyProg.Interleaving
import OsyProg.ShmQueue
import OsyProg.Sessions
import OsyProg.Custody
import OsyProg.FileTransfer
import OsyProg.Admission
import OsyProg.Ring
import OsyProg.CondQueue
import OsyProg.ProducerClient
import OsyProg.QueueModes
import OsyProg.PauseGate
import OsyProg.Lines
import OsyProg.LineQueue
import OsyProg.ChildServe
import OsyProg.Exchange
import OsyProg.NumberedLines
import OsyProg.YieldVariants
import OsyProg.TickAccounts
import OsyProg.Delays
import OsyProg.Cooperative
import OsyProg.CStrings
import OsyProg.HttpRequests
import OsyProg.ExecRequests
import OsyProg.MoveInput
import OsyProg.BoardInit
import OsyProg.Turns
import OsyProg.AnimalServer
import OsyProg.IndexRace
import OsyProg.Verbank
import OsyProg.Streams
import OsyProg.NumberPipe
import OsyProg.NumberText
import OsyProg.TableBounds
import OsyProg.Checksums
import OsyProg.BankNumbers
import OsyProg.BirthNumbers
import OsyProg.InputLines
import OsyProg.LineReplies
import OsyProg.PacedSending
import OsyProg.CommentFilter
import OsyProg.CompileLock
import OsyProg.FileLines
import OsyProg.CheckLoop
import OsyProg.AppendedFile
import OsyProg.CheckMessages
import OsyProg.Calculator
import OsyProg.PartialWrites
import OsyProg.WriteAll
import OsyProg.RecvLine
import OsyProg.FileCopies
import OsyProg.AnimalClient
import OsyProg.CArrays
import OsyProg.Handles
import OsyProg.ChatServer
import OsyProg.ChatMessages
import OsyProg.ChatSlots
import OsyProg.ChatLines
import OsyProg.TaskRuns
import OsyProg.StreamWaits
import OsyProg.PortTurns
