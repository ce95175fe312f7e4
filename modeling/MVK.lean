import MVK.Lib.Runs
import MVK.Lib.SelfMap
import MVK.Lib.TransCache
import MVK.Lib.FirstFit
import MVK.Word
import MVK.Machine
import MVK.Paging
import MVK.Boot
import MVK.PagingInit
import MVK.PageTable
import MVK.PageMap
import MVK.Tlb
import MVK.Bitmap
import MVK.Heap
import MVK.HeapMap
import MVK.Rows
import MVK.HandOut
import MVK.FreePage
import MVK.AllocPages
import MVK.PageSearch
import MVK.Mmap
import MVK.FreeArea
import MVK.Lib.Scrollback
import MVK.Memory
import MVK.Terminal
import MVK.Screen
import MVK.ScreenBounds
import MVK.Glyphs
import MVK.Lib.Numeral
import MVK.Lib.Lines
import MVK.Itoa
import MVK.Printf
import MVK.PrintfFormat
import MVK.Stdio
import MVK.HeapLock
import MVK.Lib.Congruential
import MVK.Rand
import MVK.Lib.PostOrder
import MVK.Pci
import MVK.PciScan
import MVK.PciTree
import MVK.Rtc
import MVK.RtcFormat
import MVK.Lib.Preemption
import MVK.Lib.DownStack
import MVK.Stack
import MVK.Lib.ObjectStore
import MVK.Lib.Linked
import MVK.Lib.Tiling
import MVK.BoundaryTag
import MVK.Liballoc
import MVK.TagEdits
import MVK.TagLists
import MVK.Regions
import MVK.AllocatorInv
import MVK.Malloc
import MVK.HeapCopy
import MVK.AllocatorCalls
import MVK.AllocatorEdges
import MVK.KernelHeap
import MVK.PciHeap
import MVK.Cpu
import MVK.Gdt
import MVK.Isr
import MVK.IrqStub
import MVK.Pic
import MVK.IrqNesting
import MVK.Irq
import MVK.Exception
import MVK.Report
import MVK.PciListing
