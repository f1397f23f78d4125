import MikanSaos.Memory.Stat
import MikanSaos.Memory.MarkCalls
import MikanSaos.Task.Pipeline
import MikanSaos.Task.ExitCodes
import MikanSaos.Task.Mailbox
import MikanSaos.Task.LevelChange
import MikanSaos.Task.Overtaking
import MikanSaos.Task.PipeStream
import MikanSaos.Graphics.ReferencePicture
import MikanSaos.Graphics.ShadowBuffer
import MikanSaos.Timer.TimerRun
import MikanSaos.FileSystem.Directory
import MikanSaos.FileSystem.RoundTrip
import MikanSaos.FileSystem.FileRuns
import MikanSaos.FileSystem.ReadRun
import MikanSaos.FileSystem.WriteFrame
import MikanSaos.FileSystem.WritePosition
import MikanSaos.FileSystem.DeleteFile
import MikanSaos.FileSystem.RepeatedSlashes
import MikanSaos.FileSystem.CreateThenFind
import MikanSaos.FileSystem.FullVolume
import MikanSaos.FileSystem.OpenFile
import MikanSaos.FileSystem.SharedFile
import MikanSaos.App.LoaderSafety
import MikanSaos.Usb.RingRun
import MikanSaos.Usb.EventRing
import MikanSaos.Usb.AddressingLock
import MikanSaos.Usb.ControlTransfers
import MikanSaos.Paging.SetupPages
import MikanSaos.Paging.CopyPages
import MikanSaos.Paging.CleanPages
import MikanSaos.App.AddressRegions
import MikanSaos.App.PointerArguments
import MikanSaos.App.StartErrors
import MikanSaos.App.SegmentPages
import MikanSaos.App.MappedFiles
import MikanSaos.Graphics.DrawingBounds
import MikanSaos.Graphics.MouseDrag
import MikanSaos.Terminal.BlinkChain
import MikanSaos.Terminal.Cat
import MikanSaos.Terminal.LongNames
import MikanSaos.Terminal.Segments
import MikanSaos.Paging.Roots
import MikanSaos.Paging.MappedRange
import MikanSaos.Paging.ClonedTree
import MikanSaos.Paging.PageBytes
import MikanSaos.Paging.AddressableFrames
import MikanSaos.Graphics.LayerOrder
import MikanSaos.Graphics.RectangleMove
import MikanSaos.Terminal.PrintBounds
import MikanSaos.Terminal.LineEditor
import MikanSaos.Terminal.CursorGrid
import MikanSaos.Terminal.ReferenceEditor
import MikanSaos.Terminal.CutStrings
import MikanSaos.Terminal.LineSplitting
import MikanSaos.Terminal.ArgumentVector
import MikanSaos.Timer.PmTimer
import MikanSaos.Usb.KeyboardEvents
import MikanSaos.Usb.HCOwnership
import MikanSaos.Pci.ScanTable
import MikanSaos.Pci.Topology
import MikanSaos.Usb.MemoryPool
import MikanSaos.App.HeapGrowth
import MikanSaos.Usb.EndpointIndices
import MikanSaos.Graphics.MouseMessages
import MikanSaos.Usb.ArrayMapRun
import MikanSaos.FileSystem.VolumeLayout
import MikanSaos.Assembly.SwitchContext
import MikanSaos.Reasoning.Simulation
import MikanSaos.Assembly.TimerInterrupt
import MikanSaos.Assembly.InitContext
import MikanSaos.Assembly.VirtualProcessors
import MikanSaos.Assembly.SystemCall
import MikanSaos.Reasoning.Postfix
import MikanSaos.App.Rpn
import MikanSaos.Graphics.Console
import MikanSaos.Graphics.ConsolePicture
import MikanSaos.Boot.KernelLoader
import MikanSaos.Reasoning.BitFields
import MikanSaos.Interrupt.DescriptorTables
import MikanSaos.Timer.AcpiTables
import MikanSaos.Pci.Msi
import MikanSaos.App.TextView
