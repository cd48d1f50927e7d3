import Tpde.Library.PointerForest
import Tpde.Library.DfsTree
import Tpde.Analyzer.BlockOrder
import Tpde.Library.LoopNest
import Tpde.Library.RpoGraph
import Tpde.Analyzer.LiveInterval
import Tpde.Compiler.StackSlots
import Tpde.Target.ArgAssign
import Tpde.Mapper.Layout
import Tpde.Mapper.RelocateRun
import Tpde.Util.Leb
import Tpde.Util.VectorWriter
import Tpde.Library.Runs
import Tpde.Library.Ledger
import Tpde.Library.Storage
import Tpde.Util.BumpAllocator
import Tpde.Assembler.ExceptActions
import Tpde.Target.PrologueA64
import Tpde.Assembler.EhFrame
import Tpde.Assembler.Reset
import Tpde.Assembler.Changes
import Tpde.Assembler.Tables
import Tpde.Assembler.FrameWriter
import Tpde.Assembler.ResetRun
import Tpde.Assembler.Handed
import Tpde.Assembler.ObjectRead
import Tpde.Target.CallConv
import Tpde.Library.VaList
import Tpde.Target.VaStart
import Tpde.Llvm.Fcmp128
import Tpde.Llvm.IntBinary128
import Tpde.Library.TypePaths
import Tpde.Library.Accesses
import Tpde.Llvm.ComplexTypes
import Tpde.Llvm.LoadStore
import Tpde.Library.TypeWalk
import Tpde.Library.TypeLeaves
import Tpde.Llvm.PartIndex
import Tpde.Llvm.ConstantParts
import Tpde.Library.ParallelMove
import Tpde.Compiler.PhiCode
import Tpde.Library.LabelCode
import Tpde.Llvm.Switch
import Tpde.Llvm.SwitchX64
import Tpde.Llvm.SwitchA64
import Tpde.Llvm.FixupConstant
import Tpde.Llvm.ConstantValue
import Tpde.Analyzer.BlockDfs
import Tpde.Analyzer.VisitOrder
import Tpde.Library.FunctionalGraph
import Tpde.Util.SmallBitSet
import Tpde.Compiler.PhiMoves
import Tpde.Library.RegMachine
import Tpde.Compiler.Values
import Tpde.Compiler.ValueInv
import Tpde.Target.AddrReg
import Tpde.Assembler.Symbols
import Tpde.Llvm.Aliases
import Tpde.Library.Branches
import Tpde.Assembler.FunctionWriterA64
import Tpde.Assembler.FixupsA64
import Tpde.Assembler.VeneerAreas
import Tpde.Assembler.PatchedText
import Tpde.Target.RawJumpA64
import Tpde.Library.SaveArea
import Tpde.Target.EpilogueA64
import Tpde.Target.ReturnSites
import Tpde.Target.EpilogueX64
import Tpde.Target.Frames
import Tpde.Library.FreeList
import Tpde.Compiler.AssignmentAllocator
import Tpde.Util.SmallBitSetRun
import Tpde.Library.HeapSort
import Tpde.Llvm.PhiEntries
import Tpde.Llvm.SwitchFunc
import Tpde.Llvm.NumberInsts
import Tpde.Llvm.Numbering
import Tpde.Compiler.SelectEvict
import Tpde.Compiler.SelectReg
import Tpde.Library.Mappings
import Tpde.Mapper.Lifecycle
import Tpde.Target.Alloca
import Tpde.Target.IntExt
import Tpde.Target.ByvalCopy
import Tpde.Assembler.FunctionWriterX64
import Tpde.Assembler.FixupsX64
import Tpde.Library.Objects
import Tpde.Util.SmallVector
import Tpde.Util.SmallVectorInv
import Tpde.Util.SmallVectorRun
import Tpde.Compiler.Edges
