import OpenAPT.Lib.EventMachine
import OpenAPT.Bytes
import OpenAPT.Json
import OpenAPT.ConfigManager
import OpenAPT.CommandDispatcher
import OpenAPT.CommandManager
import OpenAPT.ProcessMessage
import OpenAPT.WebSocketServer
import OpenAPT.Lib.Monitor
import OpenAPT.Lib.WorkQueue
import OpenAPT.ThreadManager
import OpenAPT.ThreadPool
import OpenAPT.ThreadPoolTasks
import OpenAPT.ThreadPoolWait
import OpenAPT.Lib.Delimited
import OpenAPT.Logger
import OpenAPT.Lib.Words
import OpenAPT.DownloadManager
import OpenAPT.DownloadWorkers
import OpenAPT.LoggerManager
import OpenAPT.LoggerAsync
import OpenAPT.SocketClient
import OpenAPT.Phd2Client
import OpenAPT.ClusterStars
import OpenAPT.DeviceManager
import OpenAPT.Lib.PastTime
import OpenAPT.Task
import OpenAPT.TaskRunner
import OpenAPT.IndiCamera
import OpenAPT.IndiCameraReports
import OpenAPT.Lib.LastReport
import OpenAPT.IndiCameraInfo
import OpenAPT.IndiFocuser
import OpenAPT.IndiSerial
import OpenAPT.IndiConnection
import OpenAPT.ThreadManagerJoin
import OpenAPT.ThreadManagerAdmission
import OpenAPT.ThreadManagerShutdown
import OpenAPT.IndiPointers
import OpenAPT.Base64
import OpenAPT.Device
import OpenAPT.ModuleLoader
import OpenAPT.DownloadRelock
import OpenAPT.ThreadManagerRunning
import OpenAPT.ClientFile
import OpenAPT.Lib.XmlText
import OpenAPT.Xml
import OpenAPT.Lib.JsonText
import OpenAPT.AchievementList
import OpenAPT.IMessageText
import OpenAPT.Compiler
import OpenAPT.Compress
import OpenAPT.TaskManager
import OpenAPT.ServerLauncher
import OpenAPT.ServerShutdown
import OpenAPT.Lib.SortedKeys
import OpenAPT.MergePatch
import OpenAPT.ConfigLoad
import OpenAPT.ConfigOrder
import OpenAPT.TaskExecute
import OpenAPT.DeviceTasks
import OpenAPT.TaskGenerator
import OpenAPT.DownloadLoop
import OpenAPT.DriverTasks
import OpenAPT.CommandAsync
import OpenAPT.DownloadPriority
import OpenAPT.CommandHistory
import OpenAPT.TerminalInput
import OpenAPT.LoggerErrors
import OpenAPT.LoggerFile
import OpenAPT.Lib.Tally
import OpenAPT.LoggerAnalysis
import OpenAPT.Lib.FileStream
import OpenAPT.Lib.Hex
import OpenAPT.FileManager
import OpenAPT.FileMd5
import OpenAPT.PathConversion
import OpenAPT.CompressFile
import OpenAPT.Image
import OpenAPT.CompressImage
import OpenAPT.CalcHfd
import OpenAPT.Lib.RunningMax
import OpenAPT.ThresholdOtsu
import OpenAPT.StarCenter
import OpenAPT.DecompressFile
import OpenAPT.SubPixelCenter
import OpenAPT.ExtractZip
import OpenAPT.SyncTime
import OpenAPT.AsyncRetry
import OpenAPT.IndiFocuserNumbers
import OpenAPT.ModuleRun
import OpenAPT.AchievementAtomic
import OpenAPT.ModulesDir
import OpenAPT.Astap
import OpenAPT.Lib.ShellWords
import OpenAPT.Lib.ShellModes
import OpenAPT.SolverCommands
import OpenAPT.Lib.Strtod
import OpenAPT.AstrometryOutput
import OpenAPT.LauncherSha256
import OpenAPT.Lib.BitGroups
import OpenAPT.Base64Decode
import OpenAPT.UuidGenerator
import OpenAPT.SubPixelReads
import OpenAPT.StarSearch
import OpenAPT.Lib.Gregorian
import OpenAPT.JulianDay
import OpenAPT.Glob
import OpenAPT.Lib.BigEndian
import OpenAPT.Lib.Chaining
import OpenAPT.Lib.Sha2
import OpenAPT.Sha256
import OpenAPT.Sha256OneByOne
import OpenAPT.CompressFolder
import OpenAPT.ConfigSave
import OpenAPT.ConfigWrites
import OpenAPT.GlobTree
import OpenAPT.Lib.Truncation
import OpenAPT.StarDrawing
import OpenAPT.TaskHistory
import OpenAPT.Lib.LineReads
import OpenAPT.Lib.ShellScripts
import OpenAPT.ModuleInstances
import OpenAPT.NetworkStatus
import OpenAPT.OverlayImage
import OpenAPT.ProgramOnPort
import OpenAPT.Lib.Workload
import OpenAPT.LauncherPool
import OpenAPT.LauncherPoolRest
import OpenAPT.NtpTime
